import Enix.Thread.Life

/-!
# Runs of the scheduler

A run starts where `thread_init` ends; each step is a call that the task on the
processor makes, a tick of the clock, or that task going on inside `sema_down`
or `sys_wait`. `Steady` is what every step keeps: one task runs, the lists agree
with the statuses, and the idle thread sleeps nowhere but in `idle`.
-/
set_option autoImplicit false

namespace Enix.Thread
open Enix.Core Enix.Kernel Function
open Enix.Memory (TaskStatus)

inductive Call where
  | tick
  /-- `intr_enable`, `intr_disable` and `intr_set_status` by a task -/
  | setIntr (status : Bool)
  | threadStart (p prio : Nat)
  /-- `thread_block(TASK_BLOCKED)` in `idle` -/
  | idle
  | semaInit (k value : Nat)
  | semaDown (k : Nat)
  | semaUp (k : Nat)
  | ioqWait (j : Nat)
  | wakeup (j : Nat)
  | threadYield
  | sysFork (child : Option Nat) (ok : Bool)
  | sysExit (status : Int)
  | sysWait
  /-- `thread_exit(running_thread(), true)` in `main` -/
  | threadExit
  | goOn
  deriving DecidableEq

/-- What a run leaves behind for a reader. -/
inductive Event where
  | born (q : Nat)
  | exited (q : Nat) (status : Int)
  | waited (p : Nat) (r : Waited)
  deriving DecidableEq, Repr

/-- mirrors src/thread/sync.c:8-12 (`sema_init`) -/
def semaInit (k value : Nat) : M Unit := Cmd.change (·.setSema k ⟨value % 256, []⟩)

/-- `sys_wait` or its loop, by the task that runs. -/
def waiting (m : M (Option Waited)) : M (Option Event) := do
  let p ← Cmd.read (·.cur)
  pure ((← m).map (.waited p))

/-- What is executed. -/
def Call.cmd : Call → M (Option Event)
  | tick => do
    intrTimerHandler
    pure none
  | setIntr status => do
    intrSetStatus status
    pure none
  | threadStart p prio => do
    Thread.threadStart p prio
    pure (some (.born p))
  | idle => do
    threadBlock .blocked .out
    pure none
  | semaInit k value => do
    Thread.semaInit k value
    pure none
  | semaDown k => do
    Thread.semaDown k
    pure none
  | semaUp k => do
    Thread.semaUp k
    pure none
  | ioqWait j => do
    Thread.ioqWait j
    pure none
  | wakeup j => do
    Thread.wakeup j
    pure none
  | threadYield => do
    Thread.threadYield
    pure none
  | sysFork child ok => do
    let pid ← Thread.sysFork child ok
    pure (if pid = -1 then none else child.map .born)
  | sysExit status => do
    let p ← Cmd.read (·.cur)
    Thread.sysExit status
    pure (some (.exited p status))
  | sysWait => waiting Thread.sysWait
  | threadExit => do
    Thread.threadExit (← Cmd.read (·.mainThread)) true
    pure none
  | goOn => waiting Thread.goOn

/-- The task that runs is outside the functions that put it to sleep. -/
def Threads.outside (s : Threads) : Prop := ∃ t b, s.tasks s.cur = some t ∧ t.resume = .out b

/-- A process runs, inside a system call: the gate has turned interrupts off. -/
def Threads.inSyscall (s : Threads) : Prop :=
  s.intr = false ∧ ∃ t b, s.tasks s.cur = some t ∧ t.process = true ∧ t.resume = .out b

/-- What the callers promise. A page that `get_kernel_pages` returns is nobody's
PCB; `idle` calls `thread_block` and nothing else; `sema_init` gets a semaphore
that nobody waits on; only `main` calls `thread_exit` for itself. -/
def Call.Legal : Call → Threads → Prop
  | tick, s => s.outside ∧ s.intr = true
  | setIntr _, s => s.outside
  | threadStart p _, s => s.outside ∧ s.tasks p = none
  | idle, s => s.outside ∧ s.cur = s.idleThread
  | semaInit k _, s => s.outside ∧ (s.semas k).waiters = []
  | semaDown _, s => s.outside ∧ s.cur ≠ s.idleThread
  | semaUp _, s => s.outside
  | ioqWait _, s => s.outside ∧ s.cur ≠ s.idleThread
  | wakeup _, s => s.outside
  | threadYield, s => s.outside
  | sysFork child _, s => s.inSyscall ∧ ∀ c, child = some c → s.tasks c = none
  | sysExit _, s => s.inSyscall
  | sysWait, s => s.inSyscall
  | threadExit, s => s.outside ∧ s.cur = s.mainThread
  | goOn, s => ¬ s.outside

def Resume.isOut : Resume → Bool
  | .out _ => true
  | _ => false

instance (s : Threads) : Decidable s.outside :=
  decidable_of_iff ((s.tasks s.cur).any (·.resume.isOut) = true) (by
    unfold Threads.outside
    cases s.tasks s.cur with
    | none => simp
    | some t => cases h : t.resume <;> simp [Resume.isOut, h])

instance (s : Threads) : Decidable s.inSyscall :=
  decidable_of_iff (s.intr = false ∧ (s.tasks s.cur).any (fun t => t.process && t.resume.isOut) = true) (by
    unfold Threads.inSyscall
    cases s.tasks s.cur with
    | none => simp
    | some t => cases h : t.resume <;> simp [Resume.isOut, h])

instance (child : Option Nat) (s : Threads) : Decidable (∀ c, child = some c → s.tasks c = none) :=
  match child with
  | none => isTrue (by simp)
  | some c => decidable_of_iff (s.tasks c = none) (by simp)

instance (c : Call) (s : Threads) : Decidable (c.Legal s) :=
  match c with
  | .tick => inferInstanceAs (Decidable (_ ∧ _))
  | .setIntr _ => inferInstanceAs (Decidable s.outside)
  | .threadStart _ _ => inferInstanceAs (Decidable (_ ∧ _))
  | .idle => inferInstanceAs (Decidable (_ ∧ _))
  | .semaInit _ _ => inferInstanceAs (Decidable (_ ∧ _))
  | .semaDown _ => inferInstanceAs (Decidable (_ ∧ _))
  | .semaUp _ => inferInstanceAs (Decidable s.outside)
  | .ioqWait _ => inferInstanceAs (Decidable (_ ∧ _))
  | .wakeup _ => inferInstanceAs (Decidable s.outside)
  | .threadYield => inferInstanceAs (Decidable s.outside)
  | .sysFork _ _ => inferInstanceAs (Decidable (_ ∧ _))
  | .sysExit _ => inferInstanceAs (Decidable s.inSyscall)
  | .sysWait => inferInstanceAs (Decidable s.inSyscall)
  | .threadExit => inferInstanceAs (Decidable (_ ∧ _))
  | .goOn => inferInstanceAs (Decidable (¬ _))

/-- From the end of `thread_init` to `s`, with the events on the way, by calls that
meet `C`. -/
def ReachableBy (C : Call → Threads → Prop) (s : Threads) (l : List Event) : Prop := ∃ main init idle s₀ calls,
  init ≠ main ∧ idle ≠ main ∧ idle ≠ init ∧ threadInit init idle (blank main) = .ok ((), s₀) ∧
    Steps (fun c => Cmd.logged (Call.cmd c)) (fun c x => C c x.1) calls (s₀, []) (s, l)

def Reachable (s : Threads) (l : List Event) : Prop := ReachableBy Call.Legal s l

/-- The idle thread is a kernel thread, outside `sema_down`. -/
def Threads.idleOut (s : Threads) : Prop :=
  ∃ t b, s.tasks s.idleThread = some t ∧ t.process = false ∧ t.resume = .out b

/-- Only processes are inside `sys_wait`. -/
def Threads.waitsOut (s : Threads) : Prop :=
  ∀ p t, s.tasks p = some t → t.resume = .sysWait → t.process = true

/-- What every call keeps. -/
structure Steady (s : Threads) : Prop extends Scheduled s where
  idleOut : s.idleOut
  waitsOut : s.waitsOut
  notMain : s.mainThread ≠ s.idleThread

/-- The ASSERTs and the PANIC of the scheduler do not fire. -/
def NotScheduler (e : Stop) : Prop :=
  e ≠ .assertion .schedule ∧ e ≠ .assertion .threadUnblock ∧ e ≠ .assertion .threadYield

section
variable {s s₁ s' : Threads} {t u : Task} {c : Call} {l : List Event} {p q i k : Nat} {old : Bool}

theorem Rescheduled.idleOut (h : Rescheduled s s') (hi : s.idleOut) : s'.idleOut := by
  obtain ⟨t, b, ht, hproc, hout⟩ := hi
  have hrel := h.same.tasks s.idleThread
  have hat : s'.at s.idleThread = s.at s.idleThread := congrFun h.resume _
  unfold Threads.at at hat
  unfold Threads.idleOut
  rw [h.same.idleThread]
  rw [ht] at hrel hat
  cases hs' : s'.tasks s.idleThread with
  | none =>
    rw [hs'] at hat
    cases hat
  | some u =>
    rw [hs'] at hrel hat
    cases hrel with
    | some hm =>
      refine ⟨u, b, rfl, ?_, ?_⟩
      · rw [hm.same]
        exact hproc
      · have he : u.resume = t.resume := Option.some.inj hat
        rw [he, hout]

theorem Rescheduled.waitsOut (h : Rescheduled s s') (hw : s.waitsOut) : s'.waitsOut := by
  intro p u hu hres
  have hrel := h.same.tasks p
  have hat : s'.at p = s.at p := congrFun h.resume _
  unfold Threads.at at hat
  rw [hu] at hrel hat
  cases ht : s.tasks p with
  | none =>
    rw [ht] at hat
    cases hat
  | some t =>
    rw [ht] at hrel hat
    have he : u.resume = t.resume := Option.some.inj hat
    cases hrel with
    | some hm =>
      rw [hm.same]
      exact hw p t ht (he ▸ hres)

theorem Steady.of_rescheduled (h : Scheduled s') (hr : Rescheduled s s') (hi : s.idleOut) (hw : s.waitsOut)
    (hm : s.mainThread ≠ s.idleThread) : Steady s' := by
  refine { toScheduled := h, idleOut := hr.idleOut hi, waitsOut := hr.waitsOut hw, notMain := ?_ }
  rw [hr.same.mainThread, hr.same.idleThread]
  exact hm

/-- Only the task that runs has changed. -/
theorem Threads.idleOut.setTask (h : s.idleOut) (hp : p = s.idleThread → u.process = false ∧ ∃ b, u.resume = .out b) :
    (s.setTask p u).idleOut := by
  obtain ⟨t, b, ht, hproc, hout⟩ := h
  by_cases he : s.idleThread = p
  · obtain ⟨hu, b', hb⟩ := hp he.symm
    exact ⟨u, b', by simp [Threads.setTask, he], hu, hb⟩
  · exact ⟨t, b, by simp [Threads.setTask, he, ht], hproc, hout⟩

theorem Threads.waitsOut.setTask (h : s.waitsOut) (hu : u.resume = .sysWait → u.process = true) :
    (s.setTask p u).waitsOut := by
  intro q t ht hres
  by_cases hq : q = p
  · rw [hq, setTask_tasks, update_self] at ht
    cases ht
    exact hu hres
  · rw [setTask_tasks, update_of_ne hq] at ht
    exact h q t ht hres

/-- A task goes for good. -/
theorem Threads.waitsOut.buried (h : s.waitsOut) (ht : s.tasks q = some t) : (s.buried q t).waitsOut := by
  intro p u hu hres
  by_cases hp : p = q
  · have he : update s.tasks q (if q = s.mainThread then some { t with status := .died } else none) p = some u := hu
    rw [hp, update_self] at he
    split at he
    · cases he
      exact h q t ht hres
    · cases he
  · exact h p u ((update_of_ne hp _ _).symm.trans hu) hres

/-- A kernel thread that is outside stays outside when it is the idle thread. -/
theorem Threads.idleOut.process (h : s.idleOut) (hc : s.tasks s.cur = some t) (he : s.cur = s.idleThread) :
    t.process = false := by
  obtain ⟨u, -, hu, hproc, -⟩ := h
  rw [← he, hc] at hu
  cases hu
  exact hproc

theorem Steady.notIdle (h : Steady s) (hc : s.tasks s.cur = some t) (hp : t.process = true) :
    s.cur ≠ s.idleThread := by
  intro he
  rw [h.idleOut.process hc he] at hp
  cases hp

theorem notScheduler {a : Site} (h : a ≠ .schedule ∧ a ≠ .threadUnblock ∧ a ≠ .threadYield) :
    NotScheduler (.assertion a) := by
  refine ⟨?_, ?_, ?_⟩
  · intro he
    exact h.1 (Stop.assertion.inj he)
  · intro he
    exact h.2.1 (Stop.assertion.inj he)
  · intro he
    exact h.2.2 (Stop.assertion.inj he)

theorem Barren.notScheduler {a : Site} {e : Stop} (h : Barren a e)
    (ha : a ≠ .schedule ∧ a ≠ .threadUnblock ∧ a ≠ .threadYield) : NotScheduler e := by
  rcases h with rfl | rfl
  · exact Thread.notScheduler (by simp)
  · exact Thread.notScheduler ha

/-- A call whose result is dropped. -/
theorem runs_dropped {E : Stop → Prop} {m : M Unit} {Q : Option Event → Threads → Prop} {ev : Option Event}
    (h : runs E m (fun _ s' => Q ev s') s) : runs E (do
      m
      pure ev : M (Option Event)) Q s :=
  runs_seq h fun _ _ hp => hp

theorem runs_waiting {E : Stop → Prop} {m : M (Option Waited)} {P : Option Waited → Threads → Prop}
    {Q : Option Event → Threads → Prop} (h : runs E m P s) (hq : ∀ r s', P r s' → Q (r.map (.waited s.cur)) s') :
    runs E (waiting m) Q s := by
  unfold waiting
  rw [runs_read_bind]
  exact runs_seq h fun r s' hp => hq r s' hp

/-- One round of `sema_down`. -/
theorem Steady.semaDownLoop (h : Steady s) (hidle : s.cur ≠ s.idleThread) :
    runs NotScheduler (semaDownLoop k old) (fun _ s' => Steady s') s := by
  obtain ⟨t, hc, hr⟩ := h.inCharge
  by_cases hv : (s.semas k).value = 0
  · refine runs_mono (semaDownLoop_sleeps h.toScheduled hc hidle hv) (fun _ he => he.elim) fun _ s' h' => ?_
    refine .of_rescheduled h'.1 h'.2 ?_ ?_ h.notMain
    · exact Threads.idleOut.setTask (s := s.setSema k _) h.idleOut fun he => absurd he hidle
    · exact Threads.waitsOut.setTask (s := s.setSema k _) h.waitsOut (by simp)
  · refine runs_mono (semaDownLoop_takes hc hv) (fun _ he => he.1 ▸ notScheduler (by simp)) fun _ s' h' => ?_
    rw [h'.2]
    exact { toScheduled := h.toScheduled.takes hc
            idleOut := Threads.idleOut.setTask (s := s.setSema k _) h.idleOut fun he => absurd he hidle
            waitsOut := Threads.waitsOut.setTask (s := s.setSema k _) h.waitsOut (by simp)
            notMain := h.notMain }

theorem Threads.waitsOut.woken (h : s.waitsOut) (ht : s.tasks p = some t) : (s.woken p t).waitsOut :=
  Threads.waitsOut.setTask (s := { s with threadReadyList := p :: s.threadReadyList }) h (h p t ht)

/-- A task wakes up. -/
theorem Threads.idleOut.woken (h : s.idleOut) (ht : s.tasks p = some t) : (s.woken p t).idleOut := by
  obtain ⟨v, b, hv, hproc, hout⟩ := h
  refine Threads.idleOut.setTask (s := { s with threadReadyList := p :: s.threadReadyList }) ⟨v, b, hv, hproc, hout⟩
    fun he => ?_
  have hv' : s.tasks p = some v := by
    rw [he]
    exact hv
  rw [ht] at hv'
  cases hv'
  exact ⟨hproc, b, hout⟩

theorem Steady.semaUp (h : Steady s) : runs NotScheduler (semaUp k) (fun _ s' => Steady s') s := by
  obtain ⟨t, hc, hr⟩ := h.inCharge
  have hE : ∀ e, e = Stop.assertion .semaUp ∧ (s.semas k).value ≠ 0 → NotScheduler e :=
    fun _ he => he.1 ▸ notScheduler (by simp)
  cases hw : (s.semas k).waiters with
  | nil =>
    refine runs_mono (semaUp_free hw) hE fun _ s' h' => ?_
    have hq : (s.setSema k ⟨1, []⟩).queue = s.queue := by
      funext y
      rw [queue_setSema]
      split
      · rename_i hy
        rw [hy]
        exact hw.symm
      · rfl
    rw [h'.2]
    exact { queues := h.queues.congr rfl rfl rfl rfl hq, inCharge := h.inCharge, idleOut := h.idleOut
            waitsOut := h.waitsOut, notMain := h.notMain }
  | cons p rest =>
    refine runs_mono (semaUp_wakes h.queues hw) hE fun _ s' h' => ?_
    obtain ⟨-, v, hv, hb, rfl, hq⟩ := h'
    have hne : s.cur ≠ p := by
      intro he
      rw [← he, hc] at hv
      cases hv
      rw [hr] at hb
      cases hb
    exact { queues := hq, inCharge := ⟨t, (update_of_ne hne _ _).trans hc, hr⟩, idleOut := h.idleOut.woken hv
            waitsOut := h.waitsOut.woken hv, notMain := h.notMain }

theorem Steady.wakeup {j : Nat} (h : Steady s) : runs NotScheduler (wakeup j) (fun _ s' => Steady s') s := by
  obtain ⟨t, hc, hr⟩ := h.inCharge
  refine runs_mono (wakeup_spec h.queues) (fun _ he => he.1 ▸ notScheduler (by simp)) fun _ s' h' => ?_
  obtain ⟨p, v, -, hv, hb, rfl, hq⟩ := h'
  have hne : s.cur ≠ p := by
    intro he
    rw [← he, hc] at hv
    cases hv
    rw [hr] at hb
    cases hb
  exact { queues := hq, inCharge := ⟨t, (update_of_ne hne _ _).trans hc, hr⟩, idleOut := h.idleOut.woken hv
          waitsOut := h.waitsOut.woken hv, notMain := h.notMain }

/-- The caller of `sys_wait` or of its loop. -/
theorem Steady.sysWait (h : Steady s) (hc : s.tasks s.cur = some t) (hp : t.process = true) :
    runs NotScheduler sysWait (fun _ s' => Steady s') s := by
  have hr := h.running hc
  have hidle := h.notIdle hc hp
  refine runs_mono (sysWait_spec h.toScheduled hc hidle) (fun _ he => he.elim) fun r s' h' => ?_
  have hback : ∀ {s₁ : Threads}, Steady s₁ → s₁.cur = s.cur → s₁.idleThread = s.idleThread → Steady (s₁.back t) := by
    intro s₁ h₁ hcur hid
    refine { toScheduled := (h₁.toScheduled.setCur (u := { t with resume := .out false }) hr).intr false
             idleOut := ?_, waitsOut := Threads.waitsOut.setTask h₁.waitsOut (by simp), notMain := h₁.notMain }
    refine Threads.idleOut.setTask h₁.idleOut fun he => ?_
    rw [hcur, hid] at he
    exact absurd he hidle
  cases r with
  | none =>
    obtain ⟨-, -, hs', hres⟩ := h'
    exact .of_rescheduled hs' hres (h.idleOut.setTask fun he => absurd he hidle) (h.waitsOut.setTask fun _ => hp) h.notMain
  | some w =>
    cases w with
    | noChild =>
      obtain ⟨-, rfl⟩ := h'
      exact hback h rfl rfl
    | child q pid status =>
      obtain ⟨u, -, hu, hst, -, -, rfl⟩ := h'
      have hqi : q ≠ s.idleThread := by
        intro he
        obtain ⟨v, hv, hb⟩ := h.queues.idle
        rw [← he, hu] at hv
        cases hv
        simp [hst] at hb
      have hqc : s.cur ≠ q := by
        intro he
        rw [← he, hc] at hu
        cases hu
        rw [hr] at hst
        cases hst
      obtain ⟨v, b, hv, hproc, hout⟩ := h.idleOut
      refine hback ?_ rfl rfl
      exact { queues := h.queues.buried hu (by simp [hst]) (by simp [hst]) hqi
              inCharge := ⟨t, (update_of_ne hqc _ _).trans hc, hr⟩
              idleOut := ⟨v, b, (update_of_ne (Ne.symm hqi) _ _).trans hv, hproc, hout⟩
              waitsOut := h.waitsOut.buried hu, notMain := h.notMain }

/-- A task that has the processor back inside a loop. -/
theorem Steady.goOn (h : Steady s) (ho : ¬ s.outside) : runs NotScheduler goOn (fun _ s' => Steady s') s := by
  obtain ⟨t, hc, hr⟩ := h.inCharge
  have hidle : s.cur ≠ s.idleThread := by
    intro he
    obtain ⟨v, b, hv, -, hout⟩ := h.idleOut
    rw [← he] at hv
    exact ho ⟨v, b, hv, hout⟩
  unfold Thread.goOn
  rw [runs_bind_ok (runningThread_run hc)]
  cases hres : t.resume with
  | out b => exact h
  | semaDown k old => exact runs_seq (h.semaDownLoop hidle) fun _ s' h' => h'
  | sysWait => exact h.sysWait hc (h.waitsOut s.cur t hc hres)

theorem idleOut_adopted (h : s.idleOut) (pid : Int) : (s.adopted pid).idleOut := by
  obtain ⟨t, b, ht, hproc, hout⟩ := h
  have he : (s.adopted pid).tasks (s.adopted pid).idleThread = some
      (if s.idleThread ∈ s.threadAllList ∧ t.parentPid = pid then { t with parentPid := 1 } else t) := by
    unfold Threads.adopted
    simp [ht]
  refine ⟨_, b, he, ?_, ?_⟩
  · split
    · exact hproc
    · exact hproc
  · split
    · exact hout
    · exact hout

theorem waitsOut_adopted (h : s.waitsOut) (pid : Int) : (s.adopted pid).waitsOut := by
  intro p u hu hres
  obtain ⟨t, ht, rfl⟩ := Option.map_eq_some_iff.1 hu
  have hres' : t.resume = .sysWait := by
    split at hres
    · exact hres
    · exact hres
  split
  · exact h p t ht hres'
  · exact h p t ht hres'

theorem Steady.sysExit {v : Int} (h : Steady s) (hidle : s.cur ≠ s.idleThread) :
    runs NotScheduler (sysExit v) (fun _ s' => Steady s') s := by
  obtain ⟨t, hc, -⟩ := h.inCharge
  refine runs_mono (sysExit_spec h.toScheduled hc hidle) (fun e he => ?_) fun _ s' h' => ?_
  · rcases he with ⟨rfl, -⟩ | ⟨rfl, -⟩
    · exact notScheduler (by simp)
    · exact ⟨by simp, by simp, by simp⟩
  · obtain ⟨-, u, parent, tp, hu, hur, -, htp, hs', hres⟩ := h'
    have hi : (s.exiting t v).idleOut := idleOut_adopted (h.idleOut.setTask fun he => absurd he hidle) t.pid
    have hi₂ : ((s.exiting t v).informed parent tp).idleOut := by
      unfold Threads.informed
      split
      · exact hi.woken htp
      · exact hi
    have hw : (s.exiting t v).waitsOut := waitsOut_adopted
      (Threads.waitsOut.setTask (u := { t with exitStatus := v.bmod 256 }) h.waitsOut (h.waitsOut s.cur t hc)) t.pid
    have hw₂ : ((s.exiting t v).informed parent tp).waitsOut := by
      unfold Threads.informed
      split
      · exact hw.woken htp
      · exact hw
    obtain ⟨-, hid, -, -⟩ := informed_frame (s.exiting t v) parent tp
    refine .of_rescheduled hs' hres (hi₂.setTask fun he => absurd (he.trans hid) hidle) (hw₂.setTask (by simp)) ?_
    unfold Threads.informed
    split
    · exact h.notMain
    · exact h.notMain

/-- The main thread ends, and another task has the processor. -/
theorem Steady.threadExit_spec (h : Steady s) (hmain : s.cur = s.mainThread) :
    runs (fun _ => False) (threadExit s.mainThread true) (fun _ s' => ∃ t, s.tasks s.cur = some t ∧ Scheduled s' ∧
      Rescheduled (s.buried s.mainThread t) s') s := by
  obtain ⟨t, hc, hr⟩ := h.inCharge
  have ht : s.tasks s.mainThread = some t := hmain ▸ hc
  have hrun : threadExit s.mainThread true s = schedule (s.buried s.mainThread t) := by
    rw [threadExit_bury ht]
    rfl
  have hcur : (s.buried s.mainThread t).tasks (s.buried s.mainThread t).cur = some { t with status := .died } := by
    have he : (s.buried s.mainThread t).tasks s.mainThread = some { t with status := .died } := by
      unfold Threads.buried
      simp
    rw [← hmain] at he ⊢
    exact he
  have hq := h.queues.buried ht (by simp [hr]) (by simp [hr]) h.notMain
  have hspec := schedule_spec hq hcur rfl
  unfold runs at hspec ⊢
  rw [hrun]
  cases hsch : schedule (s.buried s.mainThread t) with
  | error e =>
    rw [hsch] at hspec
    exact hspec.elim
  | ok r =>
    rw [hsch] at hspec
    exact ⟨t, hc, hspec.1, hspec.2⟩

theorem Steady.threadExit (h : Steady s) (hmain : s.cur = s.mainThread) :
    runs NotScheduler (threadExit s.mainThread true) (fun _ s' => Steady s') s := by
  obtain ⟨v, b, hv, hproc, hout⟩ := h.idleOut
  refine runs_mono (h.threadExit_spec hmain) (fun _ he => he.elim) fun _ s' h' => ?_
  obtain ⟨t, hc, hs', hres⟩ := h'
  have hi : (s.buried s.mainThread t).idleOut := ⟨v, b, (update_of_ne (Ne.symm h.notMain) _ _).trans hv, hproc, hout⟩
  exact .of_rescheduled hs' hres hi (h.waitsOut.buried (hmain ▸ hc)) h.notMain

/-- A new task is not the idle thread. -/
theorem Steady.born (h : Steady s) (hp : s.tasks p = none) (hu : u.status = .ready) (hres : u.resume = .out true) :
    Steady (s.born i p u) := by
  obtain ⟨v, b, hv, hproc, hout⟩ := h.idleOut
  have hne : s.idleThread ≠ p := by
    intro he
    rw [he, hp] at hv
    cases hv
  exact { toScheduled := h.toScheduled.born hp hu
          idleOut := ⟨v, b, (update_of_ne hne _ _).trans hv, hproc, hout⟩
          waitsOut := Threads.waitsOut.setTask (s := s) h.waitsOut (by simp [hres]), notMain := h.notMain }

/-- A page that is no PCB is on no list. -/
theorem Queues.fresh (h : Queues s) (hp : s.tasks p = none) : p ∉ s.threadReadyList := by
  intro hm
  obtain ⟨t, ht, -⟩ := (h.ready p).1 hm
  rw [hp] at ht
  cases ht

theorem Steady.setIntr {b : Bool} (h : Steady s) : Steady { s with intr := b } :=
  { toScheduled := h.toScheduled.intr b, idleOut := h.idleOut, waitsOut := h.waitsOut, notMain := h.notMain }

/-- A semaphore that nobody waits for gets a value. -/
theorem Steady.semaInit {v : Nat} (h : Steady s) (hw : (s.semas k).waiters = []) : Steady (s.setSema k ⟨v, []⟩) := by
  have hq : (s.setSema k ⟨v, []⟩).queue = s.queue := by
    funext y
    rw [queue_setSema]
    split
    · rename_i hy
      rw [hy]
      exact hw.symm
    · rfl
  exact { queues := h.queues.congr rfl rfl rfl rfl hq, inCharge := h.inCharge, idleOut := h.idleOut
          waitsOut := h.waitsOut, notMain := h.notMain }

/-- Every call keeps the lists, and none stops at an ASSERT or a PANIC of the
scheduler. -/
theorem Steady.call (h : Steady s) (hl : c.Legal s) : runs NotScheduler c.cmd (fun _ s' => Steady s') s := by
  obtain ⟨t, hc, hr⟩ := h.inCharge
  have hproc : s.cur = s.idleThread → t.process = false := h.idleOut.process hc
  cases c with
  | tick =>
    refine runs_dropped (runs_mono (intrTimerHandler_spec h.toScheduled hc) (fun _ he => he.elim) fun _ s' h' => ?_)
    exact .of_rescheduled h'.1 h'.2 (h.idleOut.setTask fun he => ⟨hproc he, true, rfl⟩) (h.waitsOut.setTask (by simp))
      h.notMain
  | setIntr status => exact h.setIntr
  | threadStart p prio =>
    refine runs_dropped (runs_mono (start_spec (fun pid => newTask pid .ready prio false) (h.queues.fresh hl.2))
      (fun _ he => he.notScheduler (by simp)) fun _ s' h' => ?_)
    obtain ⟨i, -, -, -, rfl⟩ := h'
    exact h.born hl.2 rfl rfl
  | idle =>
    refine runs_dropped (runs_mono (idleBlock_spec h.toScheduled hc) (fun _ he => he.elim) fun _ s' h' => ?_)
    exact .of_rescheduled h'.1 h'.2 (h.idleOut.setTask fun he => ⟨hproc he, s.intr, rfl⟩)
      (h.waitsOut.setTask (by simp)) h.notMain
  | semaInit k value => exact h.semaInit hl.2
  | semaDown k =>
    have h₁ : Steady { s with intr := false } := h.setIntr
    exact runs_dropped (h₁.semaDownLoop hl.2)
  | semaUp k => exact runs_dropped h.semaUp
  | ioqWait j =>
    refine runs_dropped (runs_mono (ioqWait_spec h.toScheduled hc hl.2) (fun _ he => he.1 ▸ notScheduler (by simp))
      fun _ s' h' => ?_)
    refine .of_rescheduled h'.2.1 h'.2.2 ?_ ?_ h.notMain
    · exact Threads.idleOut.setTask (s := s.setSleeper j _) h.idleOut fun he => absurd he hl.2
    · exact Threads.waitsOut.setTask (s := s.setSleeper j _) h.waitsOut (by simp)
  | wakeup j => exact runs_dropped h.wakeup
  | threadYield =>
    refine runs_dropped (runs_mono (threadYield_spec h.toScheduled hc) (fun _ he => he.elim) fun _ s' h' => ?_)
    refine .of_rescheduled h'.1 h'.2 ?_ ?_ h.notMain
    · exact Threads.idleOut.setTask (s := { s with threadReadyList := s.threadReadyList ++ [s.cur] }) h.idleOut
        fun he => ⟨hproc he, s.intr, rfl⟩
    · exact Threads.waitsOut.setTask (s := { s with threadReadyList := s.threadReadyList ++ [s.cur] }) h.waitsOut (by simp)
  | sysFork child ok =>
    refine runs_seq (runs_mono (sysFork_spec hc fun c hch => h.queues.fresh (hl.2 c hch))
      (fun _ he => he.notScheduler (by simp)) fun _ _ hq => hq) fun pid s' h' => ?_
    rcases h' with ⟨-, rfl | ⟨i, -, rfl⟩⟩ | ⟨-, -, i, c, hch, -, -, -, -, rfl⟩
    · exact h
    · exact { toScheduled := ⟨h.queues.congr rfl rfl rfl rfl rfl, h.inCharge⟩, idleOut := h.idleOut
              waitsOut := h.waitsOut, notMain := h.notMain }
    · exact h.born (hl.2 c hch) rfl rfl
  | sysExit status =>
    obtain ⟨-, u, b, hu, hp, -⟩ := hl
    rw [hc] at hu
    cases hu
    exact runs_dropped (h.sysExit (h.notIdle hc hp))
  | sysWait =>
    obtain ⟨-, u, b, hu, hp, -⟩ := hl
    rw [hc] at hu
    cases hu
    exact runs_waiting (h.sysWait hc hp) fun _ _ hs => hs
  | threadExit => exact runs_dropped (h.threadExit hl.2)
  | goOn => exact runs_waiting (h.goOn hl) fun _ _ hs => hs

/-! ## The start -/

theorem allocatePid_run {n : Nat} (h : s.pidBitmap.scan 1 = some (n : Int)) :
    allocatePid s = .ok ((n : Int) + 1, { s with pidBitmap := s.pidBitmap.set n true }) := by
  unfold allocatePid
  rw [bind_ok (read_run _ s), h]
  rfl

theorem enlist_run {a : Site} (hr : p ∉ s.threadReadyList) (ha : p ∉ s.threadAllList) :
    enlist p a s = .ok ((), { s with
      threadReadyList := s.threadReadyList ++ [p], threadAllList := s.threadAllList ++ [p] }) := by
  unfold enlist
  rw [bind_ok (read_run _ s), bind_ok (guard_run hr _ s), bind_ok (change_run _ s), bind_ok (read_run _ _),
    bind_ok (guard_run (by exact ha) _ _)]
  rfl

/-- A birth, while a pid is left. -/
theorem start_run (mk : Int → Task) {a : Site} {n : Nat} (hn : s.pidBitmap.scan 1 = some (n : Int))
    (hr : p ∉ s.threadReadyList) (ha : p ∉ s.threadAllList) : (do
      setTask p (mk (← allocatePid))
      enlist p a : M Unit) s = .ok ((), s.born n p (mk (n + 1))) := by
  rw [bind_ok (allocatePid_run hn), bind_ok (setTask_run _ _ _), enlist_run (by exact hr) (by exact ha)]
  rfl

/-- The main thread, which runs already, is a task with pid `n + 1`. -/
def Threads.main (s : Threads) (n : Nat) : Threads := { s with
  tasks := update s.tasks s.mainThread (some (newTask (n + 1) .running 31 false)), pidBitmap := s.pidBitmap.set n true,
  threadAllList := s.threadAllList ++ [s.mainThread] }

theorem makeMainThread_run {n : Nat} (hn : s.pidBitmap.scan 1 = some (n : Int)) (ha : s.mainThread ∉ s.threadAllList) :
    makeMainThread s = .ok ((), s.main n) := by
  unfold makeMainThread
  rw [bind_ok (read_run _ s), bind_ok (allocatePid_run hn), bind_ok (setTask_run _ _ _), bind_ok (read_run _ _),
    bind_ok (guard_run (by exact ha) _ _)]
  rfl

/-- What `thread_init` leaves. -/
def booted (main init idle : Nat) : Threads :=
  { (((blank main).born 0 init (newTask 1 .ready 31 true)).main 1).born 2 idle (newTask 3 .ready 10 false) with
    idleThread := idle }

theorem scan_blank : (⟨128, fun _ => 0⟩ : Bitmap).scan 1 = some ((0 : Nat) : Int) := by decide
theorem scan_one_pid : ((⟨128, fun _ => 0⟩ : Bitmap).set 0 true).scan 1 = some ((1 : Nat) : Int) := by decide
theorem scan_two_pids : (((⟨128, fun _ => 0⟩ : Bitmap).set 0 true).set 1 true).scan 1 = some ((2 : Nat) : Int) := by
  decide

theorem threadInit_run {main init idle : Nat} (hi : init ≠ main) (hm : idle ≠ main) (hii : idle ≠ init) :
    threadInit init idle (blank main) = .ok ((), booted main init idle) := by
  have h₁ : processExecute init (blank main) = .ok ((), (blank main).born 0 init (newTask 1 .ready 31 true)) :=
    start_run (fun pid => newTask pid .ready 31 true) scan_blank (by simp [blank]) (by simp [blank])
  have h₂ := makeMainThread_run (s := (blank main).born 0 init (newTask 1 .ready 31 true)) scan_one_pid
    (by simpa [Threads.born, blank] using Ne.symm hi)
  have h₃ : threadStart idle 10 (((blank main).born 0 init (newTask 1 .ready 31 true)).main 1) = .ok ((),
      (((blank main).born 0 init (newTask 1 .ready 31 true)).main 1).born 2 idle (newTask 3 .ready 10 false)) :=
    start_run (fun pid => newTask pid .ready 10 false) scan_two_pids
      (by simpa [Threads.born, Threads.main, blank] using hii)
      (by simpa [Threads.born, Threads.main, blank] using ⟨hii, hm⟩)
  unfold threadInit
  rw [bind_ok h₁, bind_ok h₂, bind_ok h₃]
  rfl

/-- The tasks at the start. -/
theorem booted_tasks (main init idle p : Nat) :
    (booted main init idle).tasks p = if p = idle then some (newTask 3 .ready 10 false)
      else if p = main then some (newTask 2 .running 31 false)
      else if p = init then some (newTask 1 .ready 31 true) else none := by
  simp only [booted, Threads.born, Threads.main, blank, update_apply]
  rfl

theorem booted_queue (main init idle : Nat) (x : Spot) : (booted main init idle).queue x = [] := by
  cases x with
  | sema k => rfl
  | ioq j => rfl

theorem booted_steady {main init idle : Nat} (hi : init ≠ main) (hm : idle ≠ main) (hii : idle ≠ init) :
    Steady (booted main init idle) := by
  have htask := booted_tasks main init idle
  have hidle : (booted main init idle).tasks idle = some (newTask 3 .ready 10 false) := by simp [htask]
  have hmain : (booted main init idle).tasks main = some (newTask 2 .running 31 false) := by simp [htask, Ne.symm hm]
  have hq : Queues (booted main init idle) := by
    refine ⟨fun p t ht hr => ?_, ?_, fun p => ?_, ⟨_, hidle, .inr (.inr rfl)⟩, fun x => ?_, fun x p hp => ?_,
      fun x y p hp => ?_⟩
    · rw [htask] at ht
      split at ht
      · cases ht
        cases hr
      · split at ht
        · rename_i he
          exact he
        · split at ht
          · cases ht
            cases hr
          · cases ht
    · change [init, idle].Nodup
      simpa using Ne.symm hii
    · change p ∈ [init, idle] ↔ _
      rw [htask]
      by_cases h₁ : p = idle
      · simp [h₁, newTask]
      · by_cases h₂ : p = main
        · simp [h₂, newTask, Ne.symm hm, Ne.symm hi]
        · by_cases h₃ : p = init
          · simp [h₃, newTask, Ne.symm hii, hi]
          · simp [h₁, h₂, h₃]
    · rw [booted_queue]
      exact List.nodup_nil
    · rw [booted_queue] at hp
      cases hp
    · rw [booted_queue] at hp
      cases hp
  have hw : (booted main init idle).waitsOut := by
    intro p t ht hres
    rw [htask] at ht
    split at ht
    · cases ht
      cases hres
    · split at ht
      · cases ht
        cases hres
      · split at ht
        · cases ht
          cases hres
        · cases ht
  exact { queues := hq, inCharge := ⟨_, hmain, rfl⟩, idleOut := ⟨_, true, hidle, rfl, rfl⟩, waitsOut := hw
          notMain := Ne.symm hm }

theorem reachable_steady (h : Reachable s l) : Steady s := by
  obtain ⟨main, init, idle, s₀, calls, hi, hm, hii, hinit, hsteps⟩ := h
  rw [threadInit_run hi hm hii] at hinit
  cases hinit
  refine hsteps.invariant_logged (I := fun s _ => Steady s) (fun c s _ ev s' hs hl he => ?_) (booted_steady hi hm hii)
  exact runs_of_ok (hs.call hl) he

/-- Whenever a task executes, it is the only one that runs, the ready list holds
each ready task once and no other, the idle thread is where `schedule` finds it,
and no call stops at an ASSERT or PANIC of `schedule`, `thread_unblock` or
`thread_yield`. -/
theorem scheduling (h : Reachable s l) :
    (∃ t, s.tasks s.cur = some t ∧ t.status = .running) ∧
    (∀ p t, s.tasks p = some t → t.status = .running → p = s.cur) ∧
    s.threadReadyList.Nodup ∧ (∀ p, p ∈ s.threadReadyList ↔ ∃ t, s.tasks p = some t ∧ t.status = .ready) ∧
    (∃ t, s.tasks s.idleThread = some t ∧
      (t.status = .blocked ∨ t.status = .running ∨ s.idleThread ∈ s.threadReadyList)) ∧
    ∀ c : Call, c.Legal s → ∀ e, c.cmd s = .error e →
      e ≠ .assertion .schedule ∧ e ≠ .assertion .threadUnblock ∧ e ≠ .assertion .threadYield := by
  have hs := reachable_steady h
  obtain ⟨t, ht, hst⟩ := hs.queues.idle
  refine ⟨hs.inCharge, hs.queues.running, hs.queues.nodup, hs.queues.ready, ⟨t, ht, ?_⟩, fun c hl e he => ?_⟩
  · rcases hst with hb | hr | hr
    · exact .inl hb
    · exact .inr (.inl hr)
    · exact .inr (.inr ((hs.queues.ready _).2 ⟨t, ht, hr⟩))
  · have hE : NotScheduler e := runs_of_error (hs.call hl) he
    exact hE

/-- At the start main runs; init and idle are ready. -/
theorem booted_reachable {main init idle : Nat} (hi : init ≠ main) (hm : idle ≠ main) (hii : idle ≠ init) :
    Reachable (booted main init idle) [] :=
  ⟨main, init, idle, _, [], hi, hm, hii, threadInit_run hi hm hii, .nil _⟩

theorem scheduling_booted : ∃ s : Threads, (∀ p, p ∈ s.threadReadyList ↔ ∃ t, s.tasks p = some t ∧ t.status = .ready) ∧
    s.threadReadyList = [1, 2] :=
  ⟨booted 0 1 2, (scheduling (booted_reachable (by decide) (by decide) (by decide))).2.2.2.1, rfl⟩

/-- What the task that runs leaves on the log. -/
def Call.event (c : Call) (s : Threads) : Option Event :=
  match c.cmd s with
  | .ok (ev, _) => ev
  | .error _ => none

theorem cmd_of_event {ev : Event} (h : c.event s = some ev) : ∃ s', c.cmd s = .ok (some ev, s') := by
  unfold Call.event at h
  split at h
  · rename_i ev' s' he
    exact ⟨s', by rw [he, h]⟩
  · cases h

/-- The state and the log after `calls`, each of which must be `legal`. -/
def follow (legal : Call → Threads → Bool) (calls : List Call) : Option (Threads × List Event) :=
  Cmd.follow (fun c => Cmd.logged (Call.cmd c)) (fun c x => legal c x.1) calls (booted 0 1 2, [])

/-- A run with main 0, init 1 and idle 2 that can be computed, and what it ends in. -/
theorem reachable_play {C : Call → Threads → Prop} {legal : Call → Threads → Bool} (calls : List Call)
    {P : Threads → List Event → Bool} (hlegal : ∀ c s, legal c s = true → C c s)
    (h : (follow legal calls).any (fun x => P x.1 x.2) = true) :
    ∃ s l, ReachableBy C s l ∧ P s l = true := by
  obtain ⟨x, hx, hP⟩ := (Option.any_eq_true _ _).1 h
  exact ⟨x.1, x.2, ⟨0, 1, 2, _, calls, by decide, by decide, by decide,
    threadInit_run (by decide) (by decide) (by decide), follow_steps (fun c x => hlegal c x.1) hx⟩, hP⟩

/-- A run of legal calls. -/
theorem reachable_legal (calls : List Call) {P : Threads → List Event → Bool}
    (h : (follow (fun c s => decide (c.Legal s)) calls).any (fun x => P x.1 x.2) = true) :
    ∃ s l, Reachable s l ∧ P s l = true :=
  reachable_play calls (fun _ _ hd => of_decide_eq_true hd) h

end

end Enix.Thread
