import Enix.Thread.Effect

/-!
# Locks (`thread/sync.c:69-99`)

One lock and any number of threads, each of which is at a program point of
`lock_acquire` or `lock_release`, or outside of them. A step is one statement of
the thread that has the processor, or a call as in `Enix.Thread.Calls`: between
two statements a clock tick may give the processor to another thread.

`LockOk` is the invariant: at most one thread owns the lock's semaphore, and the
program point of the owner says what `holder` and `holder_repeat_nr` are.
-/
set_option autoImplicit false

namespace Enix.Thread
open Enix.Core Enix.Kernel Function
open Enix.Memory (TaskStatus)

/-- The statement that a thread is about to execute; `incStore v` and `decStore v`
are the stores of `++` and `--`, behind their loads. -/
inductive Point where
  | outside
  /-- line 74, and from its call until it has returned -/
  | enter | down
  /-- lines 75, 76, 77 -/
  | own | check | one
  /-- line 81 -/
  | inc | incStore (v : Nat)
  /-- lines 89, 91, 94 -/
  | test | dec | decStore (v : Nat) | last
  /-- lines 96, 97, 98 -/
  | clear | zero | up
  deriving DecidableEq, Repr

/-- `depth` counts the acquires of a thread that have returned and whose releases
have not. mirrors src/thread/sync.h:21-26 (`struct lock`) -/
structure Locking where
  threads : Threads
  holder : Option Nat
  holderRepeatNr : Nat
  point : Nat → Point
  depth : Nat → Nat

abbrev L (α : Type) := Cmd Locking Stop α

/-- What the scheduler does. -/
def onThreads {α : Type} (m : M α) : L α := Cmd.on (·.threads) (fun x s => { x with threads := s }) m

/-- The running thread goes on at `pt`. -/
def goto (pt : Point) : L Unit := Cmd.change fun x => { x with point := update x.point x.threads.cur pt }

/-- The running thread returns. -/
def done (depth : Nat → Nat) : L Unit := Cmd.change fun x => { x with
  point := update x.point x.threads.cur .outside
  depth := update x.depth x.threads.cur (depth (x.depth x.threads.cur)) }

/-- The call of `lock_acquire`, and its test.
mirrors src/thread/sync.c:69-72 -/
def lockAcquire : L Unit := do
  if (← Cmd.read (·.holder)) ≠ some (← Cmd.read (·.threads.cur)) then goto .enter else goto .inc

/-- The call of `lock_release`, and its first ASSERT.
mirrors src/thread/sync.c:85-88 -/
def lockRelease : L Unit := do
  Cmd.guard ((← Cmd.read (·.holder)) = some (← Cmd.read (·.threads.cur))) (.assertion .lockRelease)
  goto .test

/-- The next statement of the running thread; `k` is the lock's semaphore.
mirrors src/thread/sync.c:73-82, 89-98 -/
def statement (k : Nat) : L Unit := do
  match (← Cmd.read (·.point)) (← Cmd.read (·.threads.cur)) with
  | .outside => pure ()
  | .enter => do
    goto .down
    onThreads (semaDown k)
  | .down => goto .own
  | .own => do
    Cmd.change fun x => { x with holder := some x.threads.cur }
    goto .check
  | .check => do
    Cmd.guard ((← Cmd.read (·.holderRepeatNr)) = 0) (.assertion .lockAcquire)
    goto .one
  | .one => do
    Cmd.change fun x => { x with holderRepeatNr := 1 }
    done (· + 1)
  | .inc => goto (.incStore (((← Cmd.read (·.holderRepeatNr)) + 1) % 4294967296))
  | .incStore v => do
    Cmd.change fun x => { x with holderRepeatNr := v }
    done (· + 1)
  | .test => if 1 < (← Cmd.read (·.holderRepeatNr)) then goto .dec else goto .last
  | .dec => goto (.decStore ((← Cmd.read (·.holderRepeatNr)) - 1))
  | .decStore v => do
    Cmd.change fun x => { x with holderRepeatNr := v }
    done (· - 1)
  | .last => do
    Cmd.guard ((← Cmd.read (·.holderRepeatNr)) = 1) (.assertion .lockRelease)
    goto .clear
  | .clear => do
    Cmd.change fun x => { x with holder := none }
    goto .zero
  | .zero => do
    Cmd.change fun x => { x with holderRepeatNr := 0 }
    goto .up
  | .up => do
    onThreads (semaUp k)
    done (· - 1)

inductive Act where
  | acquire
  | release
  | go
  | call (c : Call)

def Act.cmd (k : Nat) : Act → L Unit
  | acquire => lockAcquire
  | release => lockRelease
  | go => statement k
  | call c => do
    let _ ← onThreads c.cmd

/-- Ticks and the interrupts of devices come at any point; so does the processor. -/
def Call.preempts : Call → Prop
  | .tick => True
  | .semaUp _ => True
  | .wakeup _ => True
  | .goOn => True
  | _ => False

/-- The running thread is outside of the lock's functions. -/
def Locking.idle (x : Locking) : Prop := x.threads.outside ∧ x.point x.threads.cur = .outside

/-- Acquires and releases are nested; a thread that ends holds no lock, and only the
lock's functions use its semaphore. -/
def Act.Legal (k : Nat) : Act → Locking → Prop
  | acquire, x => x.idle ∧ x.threads.cur ≠ x.threads.idleThread
  | release, x => x.idle ∧ 0 < x.depth x.threads.cur
  | go, x => x.threads.outside ∧ x.point x.threads.cur ≠ .outside
  | call c, x => c.Legal x.threads ∧ ¬ c.uses k ∧ (c.preempts ∨ x.point x.threads.cur = .outside) ∧
      (c.ends → x.depth x.threads.cur = 0)

/-- A thread acquires the lock less than 2^32 times before it releases it. -/
def Act.Shallow (k : Nat) (a : Act) (x : Locking) : Prop :=
  a.Legal k x ∧ (a = .acquire → x.depth x.threads.cur + 1 < 4294967296)

/-- After `lock_init`. mirrors src/thread/sync.c:18-23 -/
def lockInit (s : Threads) (k : Nat) : Locking where
  threads := s.setSema k ⟨1, []⟩
  holder := none
  holderRepeatNr := 0
  point := fun _ => .outside
  depth := fun _ => 0

/-- A thread with `d` acquires that is at this point owns the semaphore, if it does not
sleep. -/
def Point.owning (d : Nat) : Point → Prop
  | .outside => 0 < d
  | .enter => False
  | _ => True

/-- The thread owns the semaphore: it has passed `sema_down` and not yet `sema_up`. -/
def Locking.owns (x : Locking) (k p : Nat) : Prop :=
  (x.point p).owning (x.depth p) ∧ (x.point p = .down → ∀ old, x.threads.at p ≠ some (.semaDown k old))

/-- What is known of the depth at a program point. -/
def Point.fits (d : Nat) : Point → Prop
  | .outside => d < 4294967296
  | .enter | .down | .own | .check | .one => d = 0
  | .inc => 1 ≤ d ∧ d + 1 < 4294967296
  | .incStore v => 1 ≤ d ∧ d + 1 < 4294967296 ∧ v = d + 1
  | .test => 1 ≤ d ∧ d < 4294967296
  | .dec => 2 ≤ d ∧ d < 4294967296
  | .decStore v => 1 ≤ v ∧ d < 4294967296 ∧ d = v + 1
  | .last | .clear | .zero | .up => d = 1

/-- `holder`, while `p` owns the lock and is at this point. -/
def Point.holder (p : Nat) : Point → Option Nat
  | .down | .own | .zero | .up => none
  | _ => some p

/-- `holder_repeat_nr`, while the owner, with `d` acquires, is at this point. -/
def Point.nr (d : Nat) : Point → Nat
  | .up => 0
  | _ => d

/-- Where the threads are. -/
structure Placed (k : Nat) (x : Locking) : Prop where
  steady : Steady x.threads
  asleep : x.threads.Asleep
  inside : ∀ p old, x.threads.at p = some (.semaDown k old) → x.point p = .down
  gone : ∀ p, x.threads.gone p → x.point p = .outside ∧ x.depth p = 0
  idle : x.point x.threads.idleThread = .outside ∧ x.depth x.threads.idleThread = 0
  fits : ∀ p, (x.point p).fits (x.depth p)

structure LockOk (k : Nat) (x : Locking) : Prop extends Placed k x where
  value : (x.threads.semas k).value ≤ 1
  owner : ∀ p, x.owns k p → (x.threads.semas k).value = 0 ∧ (∀ q, x.owns k q → q = p) ∧
    x.holder = (x.point p).holder p ∧ x.holderRepeatNr = (x.point p).nr (x.depth p)
  free : (∀ p, ¬ x.owns k p) → x.holder = none ∧ x.holderRepeatNr = 0

section
variable {k : Nat} {x y : Locking} {s s' : Threads} {t : Task} {pt : Point} {d p : Nat} {old : Bool} {c : Call}

theorem Threads.outside.not_inside (h : s.outside) : s.at s.cur ≠ some (.semaDown k old) := by
  obtain ⟨t, b, ht, hout⟩ := h
  rw [at_some ht, hout]
  simp

theorem Steady.not_gone (h : Steady s) : ¬ s.gone s.cur := by
  intro hg
  obtain ⟨t, ht, hr⟩ := h.inCharge
  rcases hg t ht with he | he
  · simp [hr] at he
  · simp [hr] at he

/-- The thread that runs goes on; the scheduler's state stays. -/
theorem Placed.goto (h : Placed k x) (hout : x.threads.outside) (hidle : x.threads.cur ≠ x.threads.idleThread)
    (ht : y.threads = x.threads) (hpt : y.point = update x.point x.threads.cur pt)
    (hd : y.depth = update x.depth x.threads.cur d) (hfit : pt.fits d) : Placed k y := by
  refine ⟨?_, ?_, fun p old hp => ?_, fun p hp => ?_, ?_, fun p => ?_⟩
  · rw [ht]
    exact h.steady
  · rw [ht]
    exact h.asleep
  · rw [ht] at hp
    have hne : p ≠ x.threads.cur := by
      intro he
      rw [he] at hp
      exact hout.not_inside hp
    rw [hpt, update_of_ne hne]
    exact h.inside p old hp
  · rw [ht] at hp
    have hne : p ≠ x.threads.cur := by
      intro he
      rw [he] at hp
      exact h.steady.not_gone hp
    rw [hpt, hd, update_of_ne hne, update_of_ne hne]
    exact h.gone p hp
  · rw [ht, hpt, hd, update_of_ne (Ne.symm hidle), update_of_ne (Ne.symm hidle)]
    exact h.idle
  · rw [hpt, hd]
    by_cases hp : p = x.threads.cur
    · rw [hp, update_self, update_self]
      exact hfit
    · rw [update_of_ne hp, update_of_ne hp]
      exact h.fits p

/-- Who has not moved owns the lock as before. -/
theorem owns_congr (hpt : y.point p = x.point p) (hd : y.depth p = x.depth p)
    (hat : y.threads.at p = x.threads.at p) : y.owns k p ↔ x.owns k p := by
  unfold Locking.owns
  rw [hpt, hd, hat]

/-- The owner goes on to `u` and stays the owner. -/
theorem LockOk.owned {u : Point} (h : LockOk k x) (hout : x.threads.outside) (hidle : x.threads.cur ≠ x.threads.idleThread)
    (ho : x.owns k x.threads.cur) (hfit : u.fits d) (hown : u.owning d) (ht : y.threads = x.threads)
    (hpt : y.point = update x.point x.threads.cur u) (hd : y.depth = update x.depth x.threads.cur d)
    (hh : y.holder = u.holder x.threads.cur) (hn : y.holderRepeatNr = u.nr d) : LockOk k y := by
  have hplaced : Placed k y := h.toPlaced.goto hout hidle ht hpt hd hfit
  have hpc : y.point x.threads.cur = u := by rw [hpt, update_self]
  have hdc : y.depth x.threads.cur = d := by rw [hd, update_self]
  have hcur : y.owns k x.threads.cur := by
    refine ⟨?_, fun _ old => ?_⟩
    · rw [hpc, hdc]
      exact hown
    · rw [ht]
      exact hout.not_inside
  have honly : ∀ q, y.owns k q → q = x.threads.cur := by
    intro q hq
    by_contra hne
    refine hne ((h.owner _ ho).2.1 q ((owns_congr ?_ ?_ ?_).1 hq))
    · rw [hpt, update_of_ne hne]
    · rw [hd, update_of_ne hne]
    · rw [ht]
  refine { toPlaced := hplaced, value := ?_, owner := fun p hp => ?_, free := fun hno => absurd hcur (hno _) }
  · rw [ht]
    exact h.value
  · have hp' := honly p hp
    rw [hp', ht, hpc, hdc]
    exact ⟨(h.owner _ ho).1, honly, hh, hn⟩

theorem LockOk.holder_owns (h : LockOk k x) (hh : x.holder = some p) : x.owns k p := by
  by_cases hno : ∃ q, x.owns k q
  · obtain ⟨q, hq⟩ := hno
    have hhq := (h.owner q hq).2.2.1
    rw [hh] at hhq
    have hqp : p = q := by
      cases hpt : x.point q <;> simp [hpt, Point.holder] at hhq <;> exact hhq
    rw [hqp]
    exact hq
  · have hnone := (h.free fun q hq => hno ⟨q, hq⟩).1
    rw [hnone] at hh
    cases hh

/-! ## The semaphore -/

/-- Semaphore `k` after `sema_down`, or after a turn of its loop. -/
structure Lowered (k : Nat) (s s' : Threads) : Prop where
  idle : s'.idleThread = s.idleThread
  other : ∀ p, p ≠ s.cur → s'.at p = s.at p
  gone : ∀ p, s'.gone p → s.gone p
  value : (s'.semas k).value = 0
  sleepers : s'.sleepers = s.sleepers
  cur : (s.semas k).value = 0 ∧ (∃ old, s'.at s.cur = some (.semaDown k old)) ∨
    (s.semas k).value = 1 ∧ s'.cur = s.cur ∧ ∃ b, s'.at s.cur = some (.out b)

/-- Semaphore `k` after `sema_up`. -/
structure Lifted (k : Nat) (s s' : Threads) : Prop where
  idle : s'.idleThread = s.idleThread
  at_eq : s'.at = s.at
  gone : ∀ p, s'.gone p → s.gone p
  value : (s'.semas k).value = 1
  sleepers : s'.sleepers = s.sleepers
  cur : s'.cur = s.cur

theorem gone_setTask {u : Task} (hc : s.tasks p = some t) (hu : u.status = .hanging ∨ u.status = .died →
    t.status = .hanging ∨ t.status = .died) {q : Nat} (h : (s.setTask p u).gone q) : s.gone q := by
  intro v hv
  by_cases hq : q = p
  · rw [hq, hc] at hv
    cases hv
    exact hu (h u (by rw [hq]; exact update_self ..))
  · exact h v ((update_of_ne hq _ _).trans hv)

theorem at_setTask (s : Threads) (u : Task) {q : Nat} (hq : q ≠ p) : (s.setTask p u).at q = s.at q := by
  unfold Threads.at
  have he : (s.setTask p u).tasks q = s.tasks q := update_of_ne hq _ _
  rw [he]

theorem sleepsOn_lowered (hc : s.tasks s.cur = some t) (hv : (s.semas k).value = 0)
    (hr : Rescheduled (s.sleepsOn k old t) s') : Lowered k s s' := by
  refine ⟨hr.same.idleThread, fun p hp => ?_, fun p hp => ?_, ?_, hr.sleepers, .inl ⟨hv, old, ?_⟩⟩
  · rw [hr.resume]
    exact at_setTask _ _ hp
  · refine gone_setTask (s := s.setSema k _) hc (fun hd => ?_) (hr.gone hp)
    simp at hd
  · rw [hr.semas]
    have he : (s.sleepsOn k old t).semas k = { s.semas k with waiters := (s.semas k).waiters ++ [s.cur] } :=
      update_self ..
    rw [he]
    exact hv
  · rw [hr.resume]
    exact at_some (t := { t with status := .blocked, resume := .semaDown k old }) (update_self ..)

theorem takes_lowered (hc : s.tasks s.cur = some t) (hv : (s.semas k).value = 1) :
    Lowered k s (s.takes k old t) := by
  refine ⟨rfl, fun p hp => at_setTask _ _ hp, fun p hp => ?_, ?_, rfl, .inr ⟨hv, rfl, old, ?_⟩⟩
  · refine gone_setTask (s := s.setSema k _) (u := { t with resume := .out old }) hc (fun hd => hd) hp
  · have he : (s.takes k old t).semas k = { s.semas k with value := 0 } := update_self ..
    rw [he]
  · exact at_some (t := { t with resume := .out old }) (update_self ..)

/-- A turn of the loop of `sema_down`. -/
theorem semaDownLoop_lowered (h : Scheduled s) (hidle : s.cur ≠ s.idleThread) (hv : (s.semas k).value ≤ 1) :
    runs (fun _ => False) (semaDownLoop k old) (fun _ s' => Lowered k s s') s := by
  obtain ⟨t, hc, -⟩ := h.inCharge
  by_cases h0 : (s.semas k).value = 0
  · exact runs_post (semaDownLoop_sleeps h hc hidle h0) fun _ s' h' => sleepsOn_lowered hc h0 h'.2
  · have h1 : (s.semas k).value = 1 := by omega
    refine runs_mono (semaDownLoop_takes hc h0) (fun _ he => he.2 h1) fun _ s' h' => ?_
    rw [h'.2]
    exact takes_lowered hc h1

theorem semaUp_lifted (h : Steady s) (hv : (s.semas k).value = 0) :
    runs (fun _ => False) (semaUp k) (fun _ s' => Lifted k s s') s := by
  cases hw : (s.semas k).waiters with
  | nil =>
    refine runs_mono (semaUp_free hw) (fun _ he => he.2 hv) fun _ s' h' => ?_
    rw [h'.2]
    refine ⟨rfl, rfl, fun _ hg => hg, ?_, rfl, rfl⟩
    have he : (s.setSema k ⟨1, []⟩).semas k = ⟨1, []⟩ := update_self ..
    rw [he]
  | cons p rest =>
    refine runs_mono (semaUp_wakes h.queues hw) (fun _ he => he.2 hv) fun _ s' h' => ?_
    obtain ⟨-, u, hu, -, rfl, -⟩ := h'
    refine ⟨rfl, at_woken hu, fun _ hg => gone_woken (u := u) hg, ?_, rfl, rfl⟩
    have he : (s.raised k p rest u).semas k = ⟨1, rest⟩ := update_self ..
    rw [he]

/-! ## Steps -/

/-- Who is about to call `sema_down` or inside of it owns nothing; it joins the waiters or
becomes the owner. -/
theorem LockOk.lowered (h : LockOk k x) (hno : ¬ x.owns k x.threads.cur) (hd : x.depth x.threads.cur = 0)
    (hidle : x.threads.cur ≠ x.threads.idleThread) (hlow : Lowered k x.threads s') (hs : Steady s') (ha : s'.Asleep) :
    LockOk k { x with threads := s', point := update x.point x.threads.cur .down } := by
  have hpt : ∀ {p}, p ≠ x.threads.cur → update x.point x.threads.cur .down p = x.point p :=
    fun hp => update_of_ne hp _ _
  have hother : ∀ {p}, p ≠ x.threads.cur →
      (({ x with threads := s', point := update x.point x.threads.cur .down } : Locking).owns k p ↔ x.owns k p) :=
    fun hp => owns_congr (hpt hp) rfl (hlow.other _ hp)
  have hplaced : Placed k { x with threads := s', point := update x.point x.threads.cur .down } := by
    refine ⟨hs, ha, fun p old hp => ?_, fun p hp => ?_, ?_, fun p => ?_⟩
    · by_cases hpc : p = x.threads.cur
      · exact hpc ▸ update_self ..
      · have hp' : x.threads.at p = some (.semaDown k old) := by
          rw [← hlow.other p hpc]
          exact hp
        exact (hpt hpc).trans (h.inside p old hp')
    · have hg := hlow.gone p hp
      have hpc : p ≠ x.threads.cur := fun he => h.steady.not_gone (he ▸ hg)
      exact ⟨(hpt hpc).trans (h.gone p hg).1, (h.gone p hg).2⟩
    · have hi := h.idle
      change update x.point x.threads.cur .down s'.idleThread = _ ∧ x.depth s'.idleThread = 0
      rw [hlow.idle, hpt (Ne.symm hidle)]
      exact hi
    · change Point.fits (x.depth p) (update x.point x.threads.cur .down p)
      by_cases hpc : p = x.threads.cur
      · rw [hpc, update_self]
        exact hd
      · rw [hpt hpc]
        exact h.fits p
  refine { toPlaced := hplaced, value := by rw [hlow.value]; omega, owner := fun p hp => ?_, free := fun hfree => ?_ }
  · refine ⟨hlow.value, ?_⟩
    rcases hlow.cur with ⟨hv, old, hat⟩ | ⟨hv, -, b, hat⟩
    · have hpc : p ≠ x.threads.cur := by
        intro he
        rw [he] at hp
        exact hp.2 (update_self ..) old hat
      have ho := h.owner p ((hother hpc).1 hp)
      refine ⟨fun q hq => ?_, ?_⟩
      · have hqc : q ≠ x.threads.cur := by
          intro he
          rw [he] at hq
          exact hq.2 (update_self ..) old hat
        exact ho.2.1 q ((hother hqc).1 hq)
      · change x.holder = (update x.point x.threads.cur .down p).holder p ∧
          x.holderRepeatNr = (update x.point x.threads.cur .down p).nr (x.depth p)
        rw [hpt hpc]
        exact ho.2.2
    · have hnobody : ∀ q, ¬ x.owns k q := by
        intro q hq
        have hv0 := (h.owner q hq).1
        omega
      have honly : ∀ q, ({ x with threads := s', point := update x.point x.threads.cur .down } : Locking).owns k q →
          q = x.threads.cur := by
        intro q hq
        by_contra hqc
        exact hnobody q ((hother hqc).1 hq)
      have hpc := honly p hp
      refine ⟨fun q hq => (honly q hq).trans hpc.symm, ?_⟩
      change x.holder = (update x.point x.threads.cur .down p).holder p ∧
        x.holderRepeatNr = (update x.point x.threads.cur .down p).nr (x.depth p)
      rw [hpc, update_self, hd]
      exact h.free hnobody
  · refine h.free fun q hq => ?_
    have hqc : q ≠ x.threads.cur := by
      intro he
      exact hno (he ▸ hq)
    exact hfree q ((hother hqc).2 hq)

/-- The owner gives the lock up. -/
theorem LockOk.lifted (h : LockOk k x) (hpt : x.point x.threads.cur = .up) (hlift : Lifted k x.threads s')
    (hout : x.threads.outside) (hs : Steady s') (ha : s'.Asleep) :
    LockOk k { x with threads := s', point := update x.point x.threads.cur .outside,
                      depth := update x.depth x.threads.cur 0 } := by
  have ho : x.owns k x.threads.cur := by
    refine ⟨?_, ?_⟩
    · rw [hpt]
      trivial
    · simp [hpt]
  have hidle : x.threads.cur ≠ x.threads.idleThread := by
    intro he
    have hi := h.idle.1
    rw [← he, hpt] at hi
    cases hi
  obtain ⟨-, honly, hh, hn⟩ := h.owner _ ho
  rw [hpt] at hh hn
  have hplaced : Placed k { x with point := update x.point x.threads.cur .outside,
                                   depth := update x.depth x.threads.cur 0 } :=
    h.toPlaced.goto hout hidle rfl rfl rfl (by simp [Point.fits])
  have hnobody : ∀ q, ¬ ({ x with threads := s', point := update x.point x.threads.cur .outside,
                                  depth := update x.depth x.threads.cur 0 } : Locking).owns k q := by
    intro q hq
    by_cases hqc : q = x.threads.cur
    · have hown := hq.1
      rw [hqc] at hown
      simp [Point.owning] at hown
    · refine hqc (honly q ((owns_congr ?_ ?_ ?_).1 hq))
      · exact update_of_ne hqc _ _
      · exact update_of_ne hqc _ _
      · exact congrFun hlift.at_eq q
  refine { steady := hs, asleep := ha, inside := fun p old hp => hplaced.inside p old ?_
           gone := fun p hp => hplaced.gone p (hlift.gone p hp), idle := ?_, fits := hplaced.fits
           value := by rw [hlift.value], owner := fun p hp => absurd hp (hnobody p), free := fun _ => ⟨hh, hn⟩ }
  · rw [← hlift.at_eq]
    exact hp
  · have hi := hplaced.idle
    change update x.point x.threads.cur .outside s'.idleThread = _ ∧ update x.depth x.threads.cur 0 s'.idleThread = 0
    rw [hlift.idle]
    exact hi

/-- Who has got past `sema_down` owns the lock. -/
theorem owns_of_point (hout : x.threads.outside) (hpt : (x.point x.threads.cur).owning (x.depth x.threads.cur)) :
    x.owns k x.threads.cur := ⟨hpt, fun _ _ => hout.not_inside⟩

theorem LockOk.lockAcquire (h : LockOk k x) (hl : Act.Shallow k .acquire x) :
    runs (fun _ => False) lockAcquire (fun _ y => LockOk k y) x := by
  obtain ⟨⟨⟨hout, hpt⟩, hidle⟩, hsmall⟩ := hl
  have hd := hsmall rfl
  unfold Thread.lockAcquire
  rw [runs_read_bind, runs_read_bind]
  refine runs_ite (fun hh => ?_) fun hh => ?_
  · have hno : ¬ x.owns k x.threads.cur := by
      intro ho
      have hho := (h.owner _ ho).2.2.1
      rw [hpt] at hho
      exact hh hho
    have hzero : x.depth x.threads.cur = 0 := by
      by_contra hne
      refine hno (owns_of_point hout ?_)
      rw [hpt]
      exact Nat.pos_of_ne_zero hne
    have hplaced : Placed k { x with point := update x.point x.threads.cur .enter } :=
      h.toPlaced.goto (d := x.depth x.threads.cur) hout hidle rfl rfl (update_eq_self _ _).symm hzero
    have hiff : ∀ p, ({ x with point := update x.point x.threads.cur .enter } : Locking).owns k p ↔ x.owns k p := by
      intro p
      by_cases hp : p = x.threads.cur
      · rw [hp]
        constructor
        · intro ho
          have hown := ho.1
          simp [Point.owning] at hown
        · intro ho
          exact absurd ho hno
      · exact owns_congr (update_of_ne hp _ _) rfl rfl
    refine { toPlaced := hplaced, value := h.value, owner := fun p hp => ?_, free := fun hfree => ?_ }
    · have hpx := (hiff p).1 hp
      have hpc : p ≠ x.threads.cur := by
        intro he
        exact hno (he ▸ hpx)
      obtain ⟨hv, honly, hrest⟩ := h.owner p hpx
      refine ⟨hv, fun q hq => honly q ((hiff q).1 hq), ?_⟩
      change x.holder = (update x.point x.threads.cur .enter p).holder p ∧
        x.holderRepeatNr = (update x.point x.threads.cur .enter p).nr (x.depth p)
      rw [update_of_ne hpc]
      exact hrest
    · exact h.free fun q hq => hfree q ((hiff q).2 hq)
  · have hh' : x.holder = some x.threads.cur := not_not.1 hh
    have ho := h.holder_owns hh'
    have hpos : 0 < x.depth x.threads.cur := by
      have hown := ho.1
      rw [hpt] at hown
      exact hown
    obtain ⟨-, -, -, hn⟩ := h.owner _ ho
    rw [hpt] at hn
    exact h.owned (u := .inc) (d := x.depth x.threads.cur) hout hidle ho ⟨hpos, hd⟩ trivial rfl rfl
      (update_eq_self _ _).symm hh' hn

/-- What a call keeps, its body keeps. -/
theorem runs_of_call {m : M Unit} (hs : Steady s) (ha : s.Asleep) (hl : c.Legal s)
    (hm : c.cmd = do
      m
      pure none) : runs (fun _ => True) m (fun _ s' => Steady s' ∧ s'.Asleep) s := by
  unfold runs
  cases he : m s with
  | error e => trivial
  | ok r =>
    have hc : c.cmd s = .ok (none, r.2) := by
      rw [hm, bind_ok he]
      rfl
    exact ⟨runs_of_ok (hs.call hl) hc, hs.asleep_call ha hl hc⟩

theorem LockOk.lockRelease (h : LockOk k x) (hl : Act.Legal k .release x) :
    runs (fun _ => False) lockRelease (fun _ y => LockOk k y) x := by
  obtain ⟨⟨hout, hpt⟩, hpos⟩ := hl
  have ho : x.owns k x.threads.cur := by
    refine owns_of_point hout ?_
    rw [hpt]
    exact hpos
  obtain ⟨-, -, hh, hn⟩ := h.owner _ ho
  rw [hpt] at hh hn
  have hidle : x.threads.cur ≠ x.threads.idleThread := by
    intro he
    have hi := h.idle.2
    rw [← he] at hi
    omega
  have hfit := h.fits x.threads.cur
  rw [hpt] at hfit
  unfold Thread.lockRelease
  rw [runs_read_bind, runs_read_bind]
  refine runs_guard_bind (fun hne => hne hh) fun _ => ?_
  exact h.owned (u := .test) hout hidle ho ⟨hpos, hfit⟩ trivial rfl rfl (update_eq_self _ _).symm hh hn

/-- A statement of the owner. -/
theorem LockOk.statement_owner (h : LockOk k x) (hout : x.threads.outside) (ho : x.owns k x.threads.cur)
    (hpt : x.point x.threads.cur ≠ .outside) : runs (fun _ => False) (statement k) (fun _ y => LockOk k y) x := by
  have hidle : x.threads.cur ≠ x.threads.idleThread := by
    intro he
    exact hpt (he ▸ h.idle.1)
  obtain ⟨hv, -, hh, hn⟩ := h.owner _ ho
  have hfit := h.fits x.threads.cur
  have hd : x.depth = update x.depth x.threads.cur (x.depth x.threads.cur) := (update_eq_self _ _).symm
  unfold statement
  rw [runs_read_bind, runs_read_bind]
  cases hp : x.point x.threads.cur with
  | outside => exact absurd hp hpt
  | enter =>
    have hown := ho.1
    rw [hp] at hown
    exact hown.elim
  | down =>
    rw [hp] at hh hn hfit
    exact h.owned (u := .own) hout hidle ho hfit trivial rfl rfl hd hh hn
  | own =>
    rw [hp] at hn hfit
    exact h.owned (u := .check) hout hidle ho hfit trivial rfl rfl hd rfl hn
  | check =>
    rw [hp] at hh hn hfit
    have h0 : x.holderRepeatNr = 0 := hn.trans hfit
    rw [runs_read_bind]
    refine runs_guard_bind (fun hne => hne h0) fun _ => ?_
    exact h.owned (u := .one) hout hidle ho hfit trivial rfl rfl hd hh hn
  | one =>
    rw [hp] at hh hfit
    have h0 : x.depth x.threads.cur = 0 := hfit
    exact h.owned (u := .outside) (d := x.depth x.threads.cur + 1) hout hidle ho (by simp [Point.fits, h0])
      (by simp [Point.owning]) rfl rfl rfl hh (by simp [Point.nr, h0])
  | inc =>
    rw [hp] at hh hn hfit
    obtain ⟨hpos, hlt⟩ := hfit
    have hn' : x.holderRepeatNr = x.depth x.threads.cur := hn
    rw [runs_read_bind, hn', Nat.mod_eq_of_lt hlt]
    exact h.owned (u := .incStore (x.depth x.threads.cur + 1)) hout hidle ho ⟨hpos, hlt, rfl⟩ trivial rfl rfl hd hh hn
  | incStore v =>
    rw [hp] at hh hfit
    obtain ⟨-, hlt, rfl⟩ := hfit
    exact h.owned (u := .outside) (d := x.depth x.threads.cur + 1) hout hidle ho hlt (by simp [Point.owning]) rfl rfl
      rfl hh rfl
  | test =>
    rw [hp] at hh hn hfit
    obtain ⟨hpos, hlt⟩ := hfit
    have hn' : x.holderRepeatNr = x.depth x.threads.cur := hn
    rw [runs_read_bind]
    refine runs_ite (fun hlong => ?_) fun hshort => ?_
    · exact h.owned (u := .dec) hout hidle ho ⟨by omega, hlt⟩ trivial rfl rfl hd hh hn
    · have hone : x.depth x.threads.cur = 1 := by omega
      exact h.owned (u := .last) hout hidle ho hone trivial rfl rfl hd hh hn
  | dec =>
    rw [hp] at hh hn hfit
    obtain ⟨htwo, hlt⟩ := hfit
    have hn' : x.holderRepeatNr = x.depth x.threads.cur := hn
    rw [runs_read_bind, hn']
    exact h.owned (u := .decStore (x.depth x.threads.cur - 1)) hout hidle ho ⟨by omega, hlt, by omega⟩ trivial rfl rfl hd
      hh hn
  | decStore v =>
    rw [hp] at hh hfit
    obtain ⟨hpos, hlt, hdv⟩ := hfit
    have hv' : x.depth x.threads.cur - 1 = v := by omega
    exact h.owned (u := .outside) (d := x.depth x.threads.cur - 1) hout hidle ho (by simp [Point.fits]; omega)
      (by simp [Point.owning]; omega) rfl rfl rfl hh hv'.symm
  | last =>
    rw [hp] at hh hn hfit
    have h1 : x.holderRepeatNr = 1 := hn.trans hfit
    rw [runs_read_bind]
    refine runs_guard_bind (fun hne => hne h1) fun _ => ?_
    exact h.owned (u := .clear) hout hidle ho hfit trivial rfl rfl hd hh hn
  | clear =>
    rw [hp] at hn hfit
    exact h.owned (u := .zero) hout hidle ho hfit trivial rfl rfl hd rfl hn
  | zero =>
    rw [hp] at hh hfit
    exact h.owned (u := .up) hout hidle ho hfit trivial rfl rfl hd hh rfl
  | up =>
    rw [hp] at hfit
    have h1 : x.depth x.threads.cur = 1 := hfit
    refine runs_seq (runs_on ?_) fun _ y hy => hy
    have hkeep := runs_both (semaUp_lifted h.steady hv) (runs_of_call (c := .semaUp k) h.steady h.asleep hout rfl)
    refine runs_mono hkeep (fun _ he => he.1) fun _ s' h' => ?_
    obtain ⟨hlift, hs, ha⟩ := h'
    have hok := h.lifted hp hlift hout hs ha
    change LockOk k { x with threads := s', point := update x.point s'.cur .outside,
                             depth := update x.depth s'.cur (x.depth s'.cur - 1) }
    rw [hlift.cur, h1]
    exact hok

theorem LockOk.statement (h : LockOk k x) (hl : Act.Legal k .go x) :
    runs (fun _ => False) (statement k) (fun _ y => LockOk k y) x := by
  obtain ⟨hout, hpt⟩ := hl
  by_cases hp : x.point x.threads.cur = .enter
  · have hno : ¬ x.owns k x.threads.cur := by
      intro ho
      have hown := ho.1
      rw [hp] at hown
      exact hown
    have hidle : x.threads.cur ≠ x.threads.idleThread := by
      intro he
      exact hpt (he ▸ h.idle.1)
    have hd := h.fits x.threads.cur
    rw [hp] at hd
    unfold Thread.statement
    rw [runs_read_bind, runs_read_bind, hp]
    change runs _ (onThreads (semaDown k)) _ { x with point := update x.point x.threads.cur .down }
    refine runs_on ?_
    have hdown : runs (fun _ => False) (semaDown k) (fun _ s' => Lowered k x.threads s') x.threads := by
      have h₁ : Steady { x.threads with intr := false } := h.steady.setIntr
      refine runs_post (semaDownLoop_lowered h₁.toScheduled hidle h.value) fun _ s' hlow => ?_
      exact ⟨hlow.idle, hlow.other, hlow.gone, hlow.value, hlow.sleepers, hlow.cur⟩
    refine runs_mono (runs_both hdown (runs_of_call (c := .semaDown k) h.steady h.asleep ⟨hout, hidle⟩ rfl))
      (fun _ he => he.1) fun _ s' h' => ?_
    exact h.lowered hno hd hidle h'.1 h'.2.1 h'.2.2
  · refine h.statement_owner hout (owns_of_point hout ?_) hpt
    cases hq : x.point x.threads.cur with
    | outside => exact absurd hq hpt
    | enter => exact absurd hq hp
    | _ => trivial

theorem LockOk.down_idle (h : LockOk k x) (hpt : x.point x.threads.cur = .down) :
    x.threads.cur ≠ x.threads.idleThread := by
  intro he
  have hi := h.idle.1
  rw [← he, hpt] at hi
  cases hi

/-- Who is inside `sema_down` goes round its loop. -/
theorem Steady.goOn_lowered (h : Steady s) (hat : s.at s.cur = some (.semaDown k old)) (hv : (s.semas k).value ≤ 1)
    (hidle : s.cur ≠ s.idleThread) :
    Call.Legal .goOn s ∧ runs (fun _ => False) Thread.goOn (fun _ s' => Lowered k s s') s := by
  obtain ⟨t, hc, -⟩ := h.inCharge
  have hres : t.resume = .semaDown k old := by
    rw [at_some hc] at hat
    exact Option.some.inj hat
  refine ⟨fun hout => hout.not_inside hat, ?_⟩
  unfold Thread.goOn
  rw [runs_bind_ok (runningThread_run hc), hres]
  exact runs_seq (semaDownLoop_lowered h.toScheduled hidle hv) fun _ _ hs => hs

/-- A waiter that has the processor goes round the loop of `sema_down`. -/
theorem LockOk.goOn (h : LockOk k x) (hat : x.threads.at x.threads.cur = some (.semaDown k old)) :
    runs (fun _ => False) ((Act.call .goOn).cmd k) (fun _ y => LockOk k y) x := by
  have hpt := h.inside _ old hat
  have hno : ¬ x.owns k x.threads.cur := fun ho => ho.2 hpt old hat
  have hd := h.fits x.threads.cur
  rw [hpt] at hd
  obtain ⟨hlegal, hloop⟩ := h.steady.goOn_lowered hat h.value (h.down_idle hpt)
  have hdown : runs (fun _ => False) Call.goOn.cmd (fun _ s' => Lowered k x.threads s') x.threads :=
    runs_waiting hloop fun _ _ hs => hs
  obtain ⟨ev, s', he, hlow⟩ := returns_of_runs hdown
  have hs := runs_of_ok (h.steady.call hlegal) he
  have ha := h.steady.asleep_call h.asleep hlegal he
  have hok := h.lowered hno hd (h.down_idle hpt) hlow hs ha
  have hsame : update x.point x.threads.cur .down = x.point := by rw [← hpt, update_eq_self]
  rw [hsame] at hok
  have hrun : (Act.call .goOn).cmd k x = .ok ((), { x with threads := s' }) := bind_ok (on_run he)
  rw [runs_ok hrun]
  exact hok

/-- A call that has nothing to do with the lock. -/
theorem LockOk.away (h : LockOk k x) (hl : c.Legal x.threads) (hpre : c.preempts ∨ x.point x.threads.cur = .outside)
    (hends : c.ends → x.depth x.threads.cur = 0) (haway : Away k x.threads c s')
    (hin : x.point x.threads.cur = .down → ∀ old, x.threads.at x.threads.cur ≠ some (.semaDown k old))
    (hs : Steady s') (ha : s'.Asleep) : LockOk k { x with threads := s' } := by
  have hiff : ∀ p, ({ x with threads := s' } : Locking).owns k p ↔ x.owns k p := by
    intro p
    by_cases hp : p = x.threads.cur
    · rw [hp]
      constructor
      · intro ho
        exact ⟨ho.1, hin⟩
      · intro ho
        exact ⟨ho.1, fun _ => haway.cur⟩
    · rcases haway.other p hp with hat | ⟨hgone, -⟩
      · exact owns_congr rfl rfl hat
      · obtain ⟨hpt, hd⟩ := h.gone p hgone
        unfold Locking.owns
        simp [hpt, hd, Point.owning]
  refine { steady := hs, asleep := ha, inside := fun p old hp => ?_, gone := fun p hp => ?_, idle := ?_, fits := h.fits
           value := ?_, owner := fun p hp => ?_, free := fun hfree => h.free fun q hq => hfree q ((hiff q).2 hq) }
  · have hpc : p ≠ x.threads.cur := by
      intro he
      exact haway.cur old (he ▸ hp)
    rcases haway.other p hpc with hat | ⟨-, hno⟩
    · exact h.inside p old (hat ▸ hp)
    · exact absurd hp (hno old)
  · rcases haway.gone p hp with hg | ⟨hpc, he⟩
    · exact h.gone p hg
    · rw [hpc]
      refine ⟨hpre.resolve_left fun hpre => ?_, hends he⟩
      cases c <;> first | exact he | exact hpre
  · change x.point s'.idleThread = _ ∧ x.depth s'.idleThread = 0
    rw [haway.idle]
    exact h.idle
  · rw [haway.sema]
    exact h.value
  · obtain ⟨hv, honly, hrest⟩ := h.owner p ((hiff p).1 hp)
    refine ⟨?_, fun q hq => honly q ((hiff q).1 hq), hrest⟩
    rw [haway.sema]
    exact hv

theorem LockOk.call (h : LockOk k x) (hl : Act.Legal k (.call c) x) :
    runs (fun _ => True) ((Act.call c).cmd k) (fun _ y => LockOk k y) x := by
  obtain ⟨hlegal, huses, hpre, hends⟩ := hl
  by_cases hin : c = .goOn ∧ ∃ old, x.threads.at x.threads.cur = some (.semaDown k old)
  · obtain ⟨rfl, old, hat⟩ := hin
    exact runs_mono (h.goOn hat) (fun _ _ => trivial) fun _ _ hy => hy
  · refine runs_seq (P := fun _ y => LockOk k y) (runs_on ?_) fun _ y hy => hy
    unfold runs
    cases he : c.cmd x.threads with
    | error e => trivial
    | ok r =>
      have hgo : c = .goOn → ∀ old, x.threads.at x.threads.cur ≠ some (.semaDown k old) :=
        fun hc old hat => hin ⟨hc, old, hat⟩
      have hs := runs_of_ok (h.steady.call hlegal) he
      refine h.away hlegal hpre hends (h.steady.away_call hlegal huses hgo he) (fun _ old hat => ?_) hs
        (h.steady.asleep_call h.asleep hlegal he)
      by_cases hc : c = .goOn
      · exact hgo hc old hat
      · exact (hlegal.outside hc).not_inside hat

/-- Every step keeps the invariant. -/
theorem LockOk.act {a : Act} (h : LockOk k x) (hl : a.Shallow k x) :
    runs (fun _ => True) (a.cmd k) (fun _ y => LockOk k y) x := by
  cases a with
  | acquire => exact runs_mono (h.lockAcquire hl) (fun _ _ => trivial) fun _ _ hy => hy
  | release => exact runs_mono (h.lockRelease hl.1) (fun _ _ => trivial) fun _ _ hy => hy
  | go => exact runs_mono (h.statement hl.1) (fun _ _ => trivial) fun _ _ hy => hy
  | call c => exact h.call hl.1

/-! ## Runs -/

/-- From `lock_init`, in a state in which nobody is inside `sema_down` of the lock's
semaphore, to `x`, by steps that meet `C`. -/
def LockReachableBy (C : Act → Locking → Prop) (k : Nat) (x : Locking) : Prop := ∃ s l acts, Reachable s l ∧
  (∀ p old, s.at p ≠ some (.semaDown k old)) ∧ Steps (Act.cmd k) C acts (lockInit s k) x

theorem lockInit_ok {l : List Event} (h : Reachable s l) (hin : ∀ p old, s.at p ≠ some (.semaDown k old)) :
    LockOk k (lockInit s k) := by
  obtain ⟨hs, ha⟩ := reachable_asleep h
  have hw : (s.semas k).waiters = [] := by
    rw [List.eq_nil_iff_forall_not_mem]
    intro p hp
    obtain ⟨t, old, ht, -, hres⟩ := (ha p k).1 hp
    exact hin p old (by rw [at_some ht, hres])
  have hno : ∀ p, ¬ (lockInit s k).owns k p := by
    intro p hp
    have hown := hp.1
    simp [lockInit, Point.owning] at hown
  have hv : ((lockInit s k).threads.semas k) = ⟨1, []⟩ := update_self ..
  refine { steady := hs.semaInit hw, asleep := ha.setSema hw.symm, inside := fun p old hp => absurd hp (hin p old)
           gone := fun p _ => ⟨rfl, rfl⟩, idle := ⟨rfl, rfl⟩, fits := fun p => by simp [lockInit, Point.fits]
           value := by rw [hv], owner := fun p hp => absurd hp (hno p), free := fun _ => ⟨rfl, rfl⟩ }

theorem lockReachable_ok (h : LockReachableBy (Act.Shallow k) k x) : LockOk k x := by
  obtain ⟨s, l, acts, hs, hin, hsteps⟩ := h
  refine hsteps.invariant (I := fun x => LockOk k x) (fun a x _ y hx hl he => ?_) (lockInit_ok hs hin)
  have hy := runs_of_ok (hx.act hl) he
  exact hy

/-- At most one thread owns the lock. `holder` is that thread, or NULL in the middle of its
last release, and `holder_repeat_nr` its depth. The semaphore is 0 or 1, and 1 only while
nobody holds the lock; its waiters are the threads that are blocked on it. No ASSERT and no
PANIC fires. -/
theorem mutual_exclusion (h : LockReachableBy (Act.Shallow k) k x) :
    (∀ p q, 0 < x.depth p → 0 < x.depth q → p = q) ∧
    (∀ p, 0 < x.depth p → x.holder = some p ∨ x.holder = none ∧ (x.point p = .zero ∨ x.point p = .up)) ∧
    (∀ p, x.holder = some p → x.holderRepeatNr = x.depth p) ∧
    (x.threads.semas k).value ≤ 1 ∧
    ((x.threads.semas k).value = 1 → x.holder = none ∧ ∀ p, x.depth p = 0) ∧
    (∀ p, p ∈ (x.threads.semas k).waiters ↔ x.point p = .down ∧ ∃ t old, x.threads.tasks p = some t ∧
      t.status = .blocked ∧ t.resume = .semaDown k old) ∧
    ∀ a : Act, a.Shallow k x → (∀ c, a = .call c → c = .goOn ∧ ∃ old, x.threads.at x.threads.cur = some (.semaDown k old)) →
      ∃ y, a.cmd k x = .ok ((), y) := by
  have hx := lockReachable_ok h
  have howns : ∀ p, 0 < x.depth p → x.owns k p := by
    intro p hp
    have hfit := hx.fits p
    unfold Locking.owns
    cases hpt : x.point p with
    | outside => exact ⟨hp, by simp⟩
    | enter =>
      rw [hpt] at hfit
      simp [Point.fits] at hfit
      omega
    | down =>
      rw [hpt] at hfit
      simp [Point.fits] at hfit
      omega
    | _ => exact ⟨trivial, by simp⟩
  have hreturns : ∀ {a : Act}, runs (fun _ => False) (a.cmd k) (fun _ y => LockOk k y) x → ∃ y, a.cmd k x = .ok ((), y) := by
    intro a hr
    obtain ⟨u, y, he, -⟩ := returns_of_runs hr
    exact ⟨y, he⟩
  refine ⟨fun p q hp hq => (hx.owner q (howns q hq)).2.1 p (howns p hp), fun p hp => ?_, fun p hh => ?_, hx.value,
    fun hv => ?_, fun p => ?_, fun a hl hc => ?_⟩
  · have hh := (hx.owner p (howns p hp)).2.2.1
    have hfit := hx.fits p
    rw [hh]
    cases hpt : x.point p with
    | zero => exact .inr ⟨rfl, .inl rfl⟩
    | up => exact .inr ⟨rfl, .inr rfl⟩
    | down =>
      rw [hpt] at hfit
      simp [Point.fits] at hfit
      omega
    | own =>
      rw [hpt] at hfit
      simp [Point.fits] at hfit
      omega
    | _ => exact .inl rfl
  · have ho := hx.holder_owns hh
    obtain ⟨-, -, hho, hn⟩ := hx.owner p ho
    rw [hn]
    cases hpt : x.point p with
    | up =>
      rw [hpt, hh] at hho
      cases hho
    | _ => rfl
  · have hnobody : ∀ p, ¬ x.owns k p := by
      intro p hp
      have hv0 := (hx.owner p hp).1
      omega
    refine ⟨(hx.free hnobody).1, fun p => ?_⟩
    by_contra hne
    exact hnobody p (howns p (Nat.pos_of_ne_zero hne))
  · rw [hx.asleep p k]
    constructor
    · rintro ⟨t, old, ht, hb, hres⟩
      exact ⟨hx.inside p old (by rw [at_some ht, hres]), t, old, ht, hb, hres⟩
    · intro h'
      exact h'.2
  · cases a with
    | acquire => exact hreturns (hx.lockAcquire hl)
    | release => exact hreturns (hx.lockRelease hl.1)
    | go => exact hreturns (hx.statement hl.1)
    | call c =>
      obtain ⟨rfl, old, hat⟩ := hc c rfl
      exact hreturns (hx.goOn hat)

theorem booted_not_inside {main init idle : Nat} (p : Nat) (old : Bool) :
    (booted main init idle).at p ≠ some (.semaDown k old) := by
  unfold Threads.at
  rw [booted_tasks]
  split
  · simp [newTask]
  · split
    · simp [newTask]
    · split
      · simp [newTask]
      · simp

/-- Main has the lock and init waits for it. -/
theorem mutual_exclusion_two : ∃ x : Locking, (∀ p q, 0 < x.depth p → 0 < x.depth q → p = q) ∧ x.depth 0 = 1 ∧
    (x.threads.semas 0).waiters = [1] := by
  have hrun : ∃ x : Locking, Steps (Act.cmd 0) (Act.Shallow 0)
      [.acquire, .go, .go, .go, .go, .go, .call .threadYield, .acquire, .go] (lockInit (booted 0 1 2) 0) x ∧
      x.depth 0 = 1 ∧ (x.threads.semas 0).waiters = [1] := by
    refine ⟨_, .cons ⟨⟨⟨⟨_, _, rfl, rfl⟩, rfl⟩, by decide⟩, fun _ => by decide⟩ rfl
      (.cons ⟨⟨⟨_, _, rfl, rfl⟩, by decide⟩, nofun⟩ rfl (.cons ⟨⟨⟨_, _, rfl, rfl⟩, by decide⟩, nofun⟩ rfl
      (.cons ⟨⟨⟨_, _, rfl, rfl⟩, by decide⟩, nofun⟩ rfl (.cons ⟨⟨⟨_, _, rfl, rfl⟩, by decide⟩, nofun⟩ rfl
      (.cons ⟨⟨⟨_, _, rfl, rfl⟩, by decide⟩, nofun⟩ rfl
      (.cons ⟨⟨⟨_, _, rfl, rfl⟩, id, .inr rfl, False.elim⟩, nofun⟩ rfl
      (.cons ⟨⟨⟨⟨_, _, rfl, rfl⟩, rfl⟩, by decide⟩, fun _ => by decide⟩ rfl
      (.cons ⟨⟨⟨_, _, rfl, rfl⟩, by decide⟩, nofun⟩ rfl (.nil _))))))))), rfl, rfl⟩
  obtain ⟨x, hsteps, hd, hw⟩ := hrun
  exact ⟨x, (mutual_exclusion ⟨booted 0 1 2, [], _, booted_reachable (by decide) (by decide) (by decide),
    booted_not_inside, hsteps⟩).1, hd, hw⟩

/-- The lock's user has it `d` times. -/
structure Nested (k d : Nat) (x : Locking) : Prop where
  idle : x.idle
  notIdle : x.threads.cur ≠ x.threads.idleThread
  holder : x.holder = some x.threads.cur
  nr : x.holderRepeatNr = d % 4294967296
  depth : x.depth x.threads.cur = d

/-- The holder acquires the lock once more. -/
theorem Nested.again (h : Nested k d x) :
    ∃ y, Steps (Act.cmd k) (Act.Legal k) [.acquire, .go, .go] x y ∧ Nested k (d + 1) y := by
  obtain ⟨⟨hout, hpt⟩, hidle, hh, hn, hd⟩ := h
  have h₁ : lockAcquire x = .ok ((), { x with point := update x.point x.threads.cur .inc }) := by
    unfold Thread.lockAcquire
    rw [bind_ok (read_run _ x), bind_ok (read_run _ x), if_neg (not_not.2 hh)]
    rfl
  have h₂ : Thread.statement k { x with point := update x.point x.threads.cur .inc } = .ok ((), { x with
      point := update (update x.point x.threads.cur .inc) x.threads.cur (.incStore ((x.holderRepeatNr + 1) % 4294967296)) }) := by
    unfold Thread.statement
    rw [bind_ok (read_run _ _), bind_ok (read_run _ _)]
    simp only [update_self]
    rfl
  have h₃ : ∀ f v, f x.threads.cur = .incStore v → Thread.statement k { x with point := f } = .ok ((), { x with
      point := update f x.threads.cur .outside, holderRepeatNr := v
      depth := update x.depth x.threads.cur (x.depth x.threads.cur + 1) }) := by
    intro f v hf
    unfold Thread.statement
    rw [bind_ok (read_run _ _), bind_ok (read_run _ _)]
    simp only [hf]
    rfl
  refine ⟨_, .cons ⟨⟨hout, hpt⟩, hidle⟩ h₁ (.cons ⟨hout, by simp⟩ h₂ (.cons ⟨hout, by simp⟩ (h₃ _ _ (update_self ..)) (.nil _))),
    ⟨hout, update_self ..⟩, hidle, hh, ?_, ?_⟩
  · change (x.holderRepeatNr + 1) % 4294967296 = _
    rw [hn]
    omega
  · change update x.depth x.threads.cur _ x.threads.cur = d + 1
    rw [update_self, hd]

theorem booted_lock : ∃ x, Steps (Act.cmd 0) (Act.Legal 0) [.acquire, .go, .go, .go, .go, .go] (lockInit (booted 0 1 2) 0) x ∧
    Nested 0 1 x := by
  refine ⟨_, .cons ⟨⟨⟨_, _, rfl, rfl⟩, rfl⟩, by decide⟩ rfl (.cons ⟨⟨_, _, rfl, rfl⟩, by decide⟩ rfl
    (.cons ⟨⟨_, _, rfl, rfl⟩, by decide⟩ rfl (.cons ⟨⟨_, _, rfl, rfl⟩, by decide⟩ rfl (.cons ⟨⟨_, _, rfl, rfl⟩, by decide⟩ rfl
    (.cons ⟨⟨_, _, rfl, rfl⟩, by decide⟩ rfl (.nil _)))))), ⟨⟨_, _, rfl, rfl⟩, rfl⟩, by decide, rfl, rfl, rfl⟩

theorem Nested.many (h : Nested k 1 x) (n : Nat) :
    ∃ acts y, Steps (Act.cmd k) (Act.Legal k) acts x y ∧ Nested k (n + 1) y := by
  induction n with
  | zero => exact ⟨[], x, .nil x, h⟩
  | succ n ih =>
    obtain ⟨acts, y, hy, hn⟩ := ih
    obtain ⟨z, hz, hnz⟩ := hn.again
    exact ⟨_, z, hy.append hz, hnz⟩

/-- `holder_repeat_nr` has 32 bits: after 2^32 acquires it is 0. -/
theorem holder_repeat_nr_wraps : ∃ k x p, LockReachableBy (Act.Legal k) k x ∧ x.holder = some p ∧
    x.depth p = 4294967296 ∧ x.holderRepeatNr = 0 := by
  obtain ⟨x, hx, h₁⟩ := booted_lock
  obtain ⟨acts, y, hy, hn⟩ := h₁.many 4294967295
  exact ⟨0, y, y.threads.cur, ⟨booted 0 1 2, [], _, booted_reachable (by decide) (by decide) (by decide),
    booted_not_inside, hx.append hy⟩, hn.holder, hn.depth, hn.nr⟩

end

end Enix.Thread
