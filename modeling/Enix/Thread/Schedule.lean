import Enix.Thread.Task
import Mathlib.Data.List.Perm.Basic
import Mathlib.Data.List.Nodup

/-!
# The lists of tasks

`Queues`: the lists agree with the statuses, at any point of `schedule` and its
callers. `schedule_spec`: from there `schedule` returns, to a state in which
exactly one task runs (`Scheduled`); every function below ends in such a state.
-/
set_option autoImplicit false

namespace Enix.Thread
open Enix.Core Enix.Kernel Function
open Enix.Memory (TaskStatus)

/-- Where a blocked task waits. -/
inductive Spot where
  | sema (k : Nat)
  | ioq (j : Nat)
  deriving DecidableEq, Repr

/-- Who waits there. -/
def Threads.queue (s : Threads) : Spot → List Nat
  | .sema k => (s.semas k).waiters
  | .ioq j => (s.sleepers j).toList

/-- The lists agree with the statuses. -/
structure Queues (s : Threads) : Prop where
  running : ∀ p t, s.tasks p = some t → t.status = .running → p = s.cur
  nodup : s.threadReadyList.Nodup
  ready : ∀ p, p ∈ s.threadReadyList ↔ ∃ t, s.tasks p = some t ∧ t.status = .ready
  idle : ∃ t, s.tasks s.idleThread = some t ∧ (t.status = .blocked ∨ t.status = .running ∨ t.status = .ready)
  queueNodup : ∀ x, (s.queue x).Nodup
  waits : ∀ x p, p ∈ s.queue x → p ≠ s.idleThread ∧ ∃ t, s.tasks p = some t ∧ t.status = .blocked
  once : ∀ x y p, p ∈ s.queue x → p ∈ s.queue y → x = y

/-- The task that has the processor is the one that runs. -/
def Threads.inCharge (s : Threads) : Prop := ∃ t, s.tasks s.cur = some t ∧ t.status = .running

/-- Neither waiting for a child nor ended. -/
def active (x : TaskStatus) : Prop := x = .running ∨ x = .ready ∨ x = .blocked

/-- The same task, which may have got or lost the processor. -/
structure Moved (t u : Task) : Prop where
  same : u = { t with status := u.status, ticks := u.ticks, elapsedTicks := u.elapsedTicks, resume := u.resume }
  status : u.status = t.status ∨ active t.status ∧ (u.status = .running ∨ u.status = .ready)

/-- The tasks are the same, and so is what does not belong to the scheduler. -/
structure SameTasks (s s' : Threads) : Prop where
  tasks : ∀ p, Option.Rel Moved (s.tasks p) (s'.tasks p)
  threadAllList : s'.threadAllList = s.threadAllList
  pidBitmap : s'.pidBitmap = s.pidBitmap
  mainThread : s'.mainThread = s.mainThread
  idleThread : s'.idleThread = s.idleThread

/-- Where the task goes on. -/
def Threads.at (s : Threads) (p : Nat) : Option Resume := (s.tasks p).map (·.resume)

/-- Others may have the processor; nothing else has changed. -/
structure Rescheduled (s s' : Threads) : Prop where
  same : SameTasks s s'
  semas : s'.semas = s.semas
  sleepers : s'.sleepers = s.sleepers
  resume : s'.at = s.at

section
variable {s s₁ s' : Threads} {t u : Task} {x y : Spot} {k j p q next : Nat} {rest l : List Nat} {b : Bool}
  {r : Resume} {stat : TaskStatus}

theorem Moved.refl (t : Task) : Moved t t := ⟨rfl, .inl rfl⟩

theorem Moved.trans {v : Task} (h₁ : Moved t u) (h₂ : Moved u v) : Moved t v := by
  refine ⟨?_, ?_⟩
  · rw [h₂.same, h₁.same]
  · rcases h₁.status with h | ⟨ht, hu⟩
    · rw [← h]
      exact h₂.status
    · rcases h₂.status with h | ⟨-, hv⟩
      · exact .inr ⟨ht, by rw [h]; exact hu⟩
      · exact .inr ⟨ht, hv⟩

theorem rel_moved (o : Option Task) : Option.Rel Moved o o := by
  cases o with
  | none => exact .none
  | some t => exact .some (Moved.refl t)

theorem SameTasks.refl (s : Threads) : SameTasks s s := ⟨fun _ => rel_moved _, rfl, rfl, rfl, rfl⟩

theorem SameTasks.trans {s₂ : Threads} (h₁ : SameTasks s s₁) (h₂ : SameTasks s₁ s₂) : SameTasks s s₂ := by
  refine ⟨fun p => ?_, h₂.threadAllList.trans h₁.threadAllList, h₂.pidBitmap.trans h₁.pidBitmap,
    h₂.mainThread.trans h₁.mainThread, h₂.idleThread.trans h₁.idleThread⟩
  have hr₁ := h₁.tasks p
  have hr₂ := h₂.tasks p
  generalize s.tasks p = a at *
  generalize s₁.tasks p = b at *
  generalize s₂.tasks p = c at *
  cases hr₁ with
  | none => exact hr₂
  | some hm =>
    cases hr₂ with
    | some hm' => exact .some (hm.trans hm')

/-- One task has moved. -/
theorem SameTasks.of_update (ht : s.tasks p = some t) (hm : Moved t u) (he : s'.tasks = update s.tasks p (some u))
    (hr : s'.threadAllList = s.threadAllList ∧ s'.pidBitmap = s.pidBitmap ∧ s'.mainThread = s.mainThread ∧
      s'.idleThread = s.idleThread) : SameTasks s s' := by
  refine ⟨fun q => ?_, hr.1, hr.2.1, hr.2.2.1, hr.2.2.2⟩
  rw [he]
  by_cases hq : q = p
  · rw [hq, update_self, ht]
    exact .some hm
  · rw [update_of_ne hq]
    exact rel_moved _

theorem Rescheduled.refl (s : Threads) : Rescheduled s s := ⟨SameTasks.refl s, rfl, rfl, rfl⟩

theorem Rescheduled.trans {s₂ : Threads} (h₁ : Rescheduled s s₁) (h₂ : Rescheduled s₁ s₂) : Rescheduled s s₂ :=
  ⟨h₁.same.trans h₂.same, h₂.semas.trans h₁.semas, h₂.sleepers.trans h₁.sleepers, h₂.resume.trans h₁.resume⟩

theorem at_update (ht : s.tasks p = some t) (hr : u.resume = t.resume) (he : s'.tasks = update s.tasks p (some u)) :
    s'.at = s.at := by
  funext q
  unfold Threads.at
  rw [he]
  by_cases hq : q = p
  · rw [hq, update_self, ht, Option.map_some, Option.map_some, hr]
  · rw [update_of_ne hq]

theorem Rescheduled.of_update (ht : s.tasks p = some t) (hm : Moved t u)
    (he : s'.tasks = update s.tasks p (some u)) (hres : u.resume = t.resume)
    (hr : s'.threadAllList = s.threadAllList ∧ s'.pidBitmap = s.pidBitmap ∧ s'.mainThread = s.mainThread ∧
      s'.idleThread = s.idleThread) (hx : s'.semas = s.semas ∧ s'.sleepers = s.sleepers) : Rescheduled s s' :=
  ⟨.of_update ht hm he hr, hx.1, hx.2, at_update ht hres he⟩

theorem Rescheduled.queue (h : Rescheduled s s') : s'.queue = s.queue := by
  funext x
  cases x with
  | sema k => simp [Threads.queue, h.semas]
  | ioq j => simp [Threads.queue, h.sleepers]

/-! ## One list, one task -/

/-- A task in a queue is blocked. -/
theorem Queues.not_waits (h : Queues s) (ht : s.tasks p = some t) (hst : t.status ≠ .blocked) (x : Spot) :
    p ∉ s.queue x := by
  intro hp
  obtain ⟨-, u, hu, hb⟩ := h.waits x p hp
  rw [ht] at hu
  cases hu
  exact hst hb

theorem Queues.not_ready (h : Queues s) (ht : s.tasks p = some t) (hst : t.status ≠ .ready) :
    p ∉ s.threadReadyList := by
  intro hp
  obtain ⟨u, hu, hr⟩ := (h.ready p).1 hp
  rw [ht] at hu
  cases hu
  exact hst hr

theorem mem_update {P : Task → Prop} (hu : P u) :
    (∃ v, update s.tasks p (some u) q = some v ∧ P v) ↔ q = p ∨ q ≠ p ∧ ∃ v, s.tasks q = some v ∧ P v := by
  by_cases hq : q = p
  · rw [hq, update_self]
    exact ⟨fun _ => .inl rfl, fun _ => ⟨u, rfl, hu⟩⟩
  · rw [update_of_ne hq]
    exact ⟨fun h => .inr ⟨hq, h⟩, fun h => (h.resolve_left hq).2⟩

/-- A task that was on no list goes to the ready list. -/
theorem Queues.toReady {z : Threads} (h : Queues s) (hu : u.status = .ready) (hno : p ∉ s.threadReadyList)
    (hq : ∀ x, p ∉ s.queue x) (ht : z.tasks = update s.tasks p (some u))
    (hl : z.threadReadyList.Perm (p :: s.threadReadyList)) (hi : z.idleThread = s.idleThread)
    (hc : z.cur = s.cur) (hx : z.queue = s.queue) : Queues z where
  running q v hv hr := by
    rw [hc]
    rw [ht] at hv
    by_cases hqp : q = p
    · rw [hqp, update_self] at hv
      cases hv
      rw [hu] at hr
      cases hr
    · rw [update_of_ne hqp] at hv
      exact h.running q v hv hr
  nodup := hl.nodup_iff.2 (List.nodup_cons.2 ⟨hno, h.nodup⟩)
  ready q := by
    rw [hl.mem_iff, List.mem_cons, ht, mem_update hu, h.ready q]
    by_cases hqp : q = p
    · simp [hqp]
    · simp [hqp]
  idle := by
    rw [hi, ht]
    obtain ⟨v, hv, hst⟩ := h.idle
    by_cases hip : s.idleThread = p
    · rw [hip, update_self]
      exact ⟨u, rfl, .inr (.inr hu)⟩
    · rw [update_of_ne hip]
      exact ⟨v, hv, hst⟩
  queueNodup x := by
    rw [hx]
    exact h.queueNodup x
  waits x q hq' := by
    rw [hx] at hq'
    obtain ⟨hne, v, hv, hb⟩ := h.waits x q hq'
    have hqp : q ≠ p := fun he => hq x (he ▸ hq')
    rw [hi, ht, update_of_ne hqp]
    exact ⟨hne, v, hv, hb⟩
  once := by
    rw [hx]
    exact h.once

/-- The first of the ready list runs, when nobody else does. -/
theorem Queues.dispatch (h : Queues s) (hnone : ∀ p t, s.tasks p = some t → t.status ≠ .running)
    (hl : s.threadReadyList = next :: rest) (hu : u.status = .running) (ht : s'.tasks = update s.tasks next (some u))
    (hr : s'.threadReadyList = rest) (hi : s'.idleThread = s.idleThread) (hc : s'.cur = next)
    (hx : s'.queue = s.queue) : Queues s' := by
  have hnd := h.nodup
  rw [hl, List.nodup_cons] at hnd
  obtain ⟨v, hv, hvr⟩ := (h.ready next).1 (by rw [hl]; exact List.mem_cons_self ..)
  have hw : ∀ x, next ∉ s.queue x := h.not_waits hv (by rw [hvr]; decide)
  refine ⟨fun q w hq hrun => ?_, by rw [hr]; exact hnd.2, fun q => ?_, ?_, by rw [hx]; exact h.queueNodup,
    fun x q hq => ?_, by rw [hx]; exact h.once⟩
  · rw [hc]
    by_contra hne
    rw [ht, update_of_ne hne] at hq
    exact hnone q w hq hrun
  · rw [hr, ht]
    have hq := h.ready q
    rw [hl, List.mem_cons] at hq
    by_cases hne : q = next
    · rw [hne, update_self]
      refine ⟨fun hm => absurd hm hnd.1, ?_⟩
      rintro ⟨w, hw, hwr⟩
      cases hw
      rw [hu] at hwr
      cases hwr
    · rw [update_of_ne hne, ← hq]
      simp [hne]
  · rw [hi, ht]
    obtain ⟨w, hw, hst⟩ := h.idle
    by_cases hne : s.idleThread = next
    · rw [hne, update_self]
      exact ⟨u, rfl, .inr (.inl hu)⟩
    · rw [update_of_ne hne]
      exact ⟨w, hw, hst⟩
  · rw [hx] at hq
    obtain ⟨hne, w, hw', hb⟩ := h.waits x q hq
    rw [hi, ht, update_of_ne fun he : q = next => hw x (he ▸ hq)]
    exact ⟨hne, w, hw', hb⟩

/-- The task that runs stops doing so; it may wait somewhere. -/
theorem Queues.leave (h : Queues s) (hc : s.tasks s.cur = some t) (hrun : t.status = .running)
    (hu : u.status ≠ .running ∧ u.status ≠ .ready) (hidle : s.cur = s.idleThread → u.status = .blocked)
    (ht : s'.tasks = update s.tasks s.cur (some u)) (hr : s'.threadReadyList = s.threadReadyList)
    (hi : s'.idleThread = s.idleThread) (hcur : s'.cur = s.cur) (hnd : ∀ x, (s'.queue x).Nodup)
    (hx : ∀ x p, p ∈ s'.queue x → p ∈ s.queue x ∨ p = s.cur ∧ u.status = .blocked ∧ s.cur ≠ s.idleThread ∧
      ∀ y, s.cur ∈ s'.queue y → y = x) : Queues s' := by
  have hready : s.cur ∉ s.threadReadyList := h.not_ready hc (by rw [hrun]; decide)
  have hno : ∀ x, s.cur ∉ s.queue x := h.not_waits hc (by rw [hrun]; decide)
  refine ⟨fun q w hq hw => ?_, by rw [hr]; exact h.nodup, fun q => ?_, ?_, hnd, fun x q hq => ?_,
    fun x y q hqx hqy => ?_⟩
  · rw [hcur]
    by_contra hne
    rw [ht, update_of_ne hne] at hq
    exact hne (h.running q w hq hw)
  · rw [hr, ht, h.ready q]
    by_cases hq : q = s.cur
    · rw [hq, update_self, hc]
      simp [hrun, hu.2]
    · rw [update_of_ne hq]
  · rw [hi, ht]
    obtain ⟨w, hw, hst⟩ := h.idle
    by_cases hq : s.idleThread = s.cur
    · rw [hq, update_self]
      exact ⟨u, rfl, .inl (hidle hq.symm)⟩
    · rw [update_of_ne hq]
      exact ⟨w, hw, hst⟩
  · rw [hi, ht]
    rcases hx x q hq with hold | ⟨rfl, hb, hne, -⟩
    · obtain ⟨hne, w, hw, hb⟩ := h.waits x q hold
      rw [update_of_ne fun he : q = s.cur => hno x (he ▸ hold)]
      exact ⟨hne, w, hw, hb⟩
    · rw [update_self]
      exact ⟨hne, u, rfl, hb⟩
  · rcases hx x q hqx with hold | ⟨rfl, -, -, honly⟩
    · rcases hx y q hqy with hold' | ⟨rfl, -, -, -⟩
      · exact h.once x y q hold hold'
      · exact absurd hold (hno x)
    · exact (honly y hqy).symm

/-- What the lists do not depend on. -/
theorem Queues.congr (h : Queues s) (ht : s'.tasks = s.tasks) (hr : s'.threadReadyList = s.threadReadyList)
    (hi : s'.idleThread = s.idleThread) (hc : s'.cur = s.cur) (hx : s'.queue = s.queue) : Queues s' := by
  refine ⟨?_, ?_, ?_, ?_, ?_, ?_, ?_⟩
  · rw [ht, hc]
    exact h.running
  · rw [hr]
    exact h.nodup
  · rw [ht, hr]
    exact h.ready
  · rw [ht, hi]
    exact h.idle
  · rw [hx]
    exact h.queueNodup
  · rw [ht, hi, hx]
    exact h.waits
  · rw [hx]
    exact h.once

/-! ## `schedule` -/

theorem task_run (ht : s.tasks p = some t) : task p s = .ok (t, s) := by
  unfold task
  rw [bind_ok (read_run _ s), ht]
  rfl

theorem runningThread_run (ht : s.tasks s.cur = some t) : runningThread s = .ok (t, s) := by
  unfold runningThread
  rw [bind_ok (read_run _ s)]
  exact task_run ht

@[simp] theorem setTask_run (p : Nat) (t : Task) (s : Threads) : setTask p t s = .ok ((), s.setTask p t) := rfl

@[simp] theorem intrDisable_run (s : Threads) : intrDisable s = .ok (s.intr, { s with intr := false }) := rfl

@[simp] theorem intrSetStatus_run (b : Bool) (s : Threads) : intrSetStatus b s = .ok ((), { s with intr := b }) := rfl

/-- The state in which a task goes on: it is the only one that runs. -/
structure Scheduled (s : Threads) : Prop where
  queues : Queues s
  inCharge : s.inCharge

/-- A task that was blocked is ready, before all others. -/
def Threads.woken (s : Threads) (p : Nat) (t : Task) : Threads :=
  { s with threadReadyList := p :: s.threadReadyList, tasks := update s.tasks p (some { t with status := .ready }) }

theorem threadUnblock_run (ht : s.tasks p = some t) (hst : t.status = .blocked ∨ t.status = .waiting ∨ t.status = .hanging)
    (hno : p ∉ s.threadReadyList) : threadUnblock p s = .ok ((), s.woken p t) := by
  have hne : t.status ≠ .ready := by
    intro hr
    simp [hr] at hst
  have ht₁ : ({ s with intr := false } : Threads).tasks p = some t := ht
  unfold threadUnblock Cmd.when
  rw [bind_ok (intrDisable_run s), bind_ok (task_run ht₁), bind_ok (guard_run hst _ _), if_pos hne]
  have hbody : (do
      Cmd.guard (p ∉ (← Cmd.read (·.threadReadyList))) (.assertion .threadUnblock)
      Cmd.change fun s => { s with threadReadyList := p :: s.threadReadyList }
      setTask p { t with status := .ready } : M Unit) { s with intr := false } =
        .ok ((), { s.woken p t with intr := false }) := by
    rw [bind_ok (read_run _ _), bind_ok (guard_run hno _ _), bind_ok (change_run _ _)]
    rfl
  rw [bind_ok hbody]
  rfl

/-- A blocked task wakes up. -/
theorem Queues.unblock (h : Queues s) (ht : s.tasks p = some t) (hst : t.status = .blocked ∨ t.status = .waiting)
    (hq : ∀ x, p ∉ s.queue x) : threadUnblock p s = .ok ((), s.woken p t) ∧ Queues (s.woken p t) := by
  have hno : p ∉ s.threadReadyList := by
    refine h.not_ready ht ?_
    intro hr
    simp [hr] at hst
  refine ⟨threadUnblock_run ht ?_ hno, h.toReady (u := { t with status := .ready }) rfl hno hq rfl (.refl _) rfl rfl rfl⟩
  rcases hst with hst | hst
  · exact .inl hst
  · exact .inr (.inl hst)

/-- After `requeue` nobody runs. -/
theorem requeue_spec (h : Queues s) (hc : s.tasks s.cur = some t) :
    runs (fun _ => False) requeue (fun _ s' => Queues s' ∧ (∀ p t, s'.tasks p = some t → t.status ≠ .running) ∧
      s'.cur = s.cur ∧ s'.intr = s.intr ∧ Rescheduled s s') s := by
  unfold requeue
  rw [runs_read_bind, runs_bind_ok (runningThread_run hc)]
  refine runs_when (fun hrun => ?_) fun hrun => ?_
  · have hno := h.not_ready hc (by rw [hrun]; decide)
    rw [runs_read_bind, runs_bind_ok (guard_run hno _ s), runs_change_bind, runs_ok (setTask_run _ _ _)]
    have hq := h.toReady (z := { s with threadReadyList := s.threadReadyList ++ [s.cur] }.setTask s.cur
      { t with ticks := t.priority, status := .ready }) (u := { t with ticks := t.priority, status := .ready }) rfl hno
      (h.not_waits hc (by rw [hrun]; decide)) rfl (List.perm_append_singleton _ _) rfl rfl rfl
    refine ⟨hq, fun p v hv hr => ?_, rfl, rfl, ?_⟩
    · have hp : p = s.cur := hq.running p v hv hr
      rw [hp] at hv
      have he : update s.tasks s.cur (some { t with ticks := t.priority, status := .ready }) s.cur = some v := hv
      rw [update_self] at he
      cases he
      cases hr
    · exact .of_update hc ⟨rfl, .inr ⟨.inl hrun, .inr rfl⟩⟩ rfl rfl ⟨rfl, rfl, rfl, rfl⟩ ⟨rfl, rfl⟩
  · refine ⟨h, fun p v hv hr => ?_, rfl, rfl, Rescheduled.refl s⟩
    rw [h.running p v hv hr, hc] at hv
    cases hv
    exact hrun hr

/-- The interrupt flag of a task that has the processor back. -/
def Resume.flag (b : Bool) : Resume → Bool
  | .out old => old
  | _ => b

theorem switchTo_run (ht : s.tasks next = some t) :
    switchTo next s = .ok ((), { s with
      tasks := update s.tasks next (some { t with status := .running }), cur := next, intr := t.resume.flag s.intr }) := by
  unfold switchTo
  rw [bind_ok (task_run ht), bind_ok (setTask_run _ _ _), bind_ok (change_run _ _)]
  cases t.resume with
  | out intr => rfl
  | semaDown k old => rfl
  | sysWait => rfl

theorem Moved.toRunning (h : active t.status) : Moved t { t with status := .running } :=
  ⟨rfl, .inr ⟨h, .inl rfl⟩⟩

theorem nobody_update (h : ∀ p t, s.tasks p = some t → t.status ≠ .running) (hu : u.status ≠ .running) (q : Nat)
    (v : Task) (hv : update s.tasks p (some u) q = some v) : v.status ≠ .running := by
  by_cases hq : q = p
  · rw [hq, update_self] at hv
    cases hv
    exact hu
  · rw [update_of_ne hq] at hv
    exact h q v hv

/-- When nobody runs, the idle thread can be woken for an empty ready list. -/
theorem Queues.wakeIdle (h : Queues s) (hnone : ∀ p t, s.tasks p = some t → t.status ≠ .running)
    (hl : s.threadReadyList = []) : ∃ t, s.tasks s.idleThread = some t ∧
      threadUnblock s.idleThread s = .ok ((), s.woken s.idleThread t) ∧ Queues (s.woken s.idleThread t) ∧
      Rescheduled s (s.woken s.idleThread t) := by
  obtain ⟨t, ht, hst⟩ := h.idle
  have hb : t.status = .blocked := by
    rcases hst with hb | hr | hr
    · exact hb
    · exact absurd hr (hnone _ t ht)
    · have hm := (h.ready s.idleThread).2 ⟨t, ht, hr⟩
      rw [hl] at hm
      cases hm
  obtain ⟨hrun, hq⟩ := h.unblock ht (.inl hb) fun x hx => (h.waits x _ hx).1 rfl
  exact ⟨t, ht, hrun, hq, .of_update ht ⟨rfl, .inr ⟨.inr (.inr hb), .inr rfl⟩⟩ rfl rfl ⟨rfl, rfl, rfl, rfl⟩ ⟨rfl, rfl⟩⟩

/-- The first of the ready list gets the processor. -/
theorem dispatch_spec (h : Queues s) (hnone : ∀ p t, s.tasks p = some t → t.status ≠ .running)
    (hne : s.threadReadyList ≠ []) :
    runs (fun _ => False) (do
      match ← Cmd.read (·.threadReadyList) with
      | [] => Cmd.stop (.assertion .schedule)
      | next :: rest => do
        Cmd.change ({ · with threadReadyList := rest })
        switchTo next : M Unit) (fun _ s' => Scheduled s' ∧ Rescheduled s s') s := by
  rw [runs_read_bind]
  cases hl : s.threadReadyList with
  | nil => exact absurd hl hne
  | cons next rest =>
    obtain ⟨t, ht, hr⟩ := (h.ready next).1 (by rw [hl]; exact List.mem_cons_self ..)
    have ht₁ : ({ s with threadReadyList := rest } : Threads).tasks next = some t := ht
    rw [runs_change_bind, runs_ok (switchTo_run ht₁)]
    exact ⟨⟨h.dispatch hnone hl (u := { t with status := .running }) rfl rfl rfl rfl rfl rfl, ⟨_, update_self .., rfl⟩⟩,
      .of_update ht (Moved.toRunning (.inr (.inl hr))) rfl rfl ⟨rfl, rfl, rfl, rfl⟩ ⟨rfl, rfl⟩⟩

/-- `schedule` returns, and another task has the processor. -/
theorem schedule_spec (h : Queues s) (hc : s.tasks s.cur = some t) (hi : s.intr = false) :
    runs (fun _ => False) schedule (fun _ s' => Scheduled s' ∧ Rescheduled s s') s := by
  unfold schedule
  rw [runs_read_bind, runs_bind_ok (guard_run hi _ s)]
  refine runs_seq (requeue_spec h hc) fun _ s₁ h₁ => ?_
  obtain ⟨hq₁, hnone, -, -, hsame₁⟩ := h₁
  have hwoken : runs (fun _ => False)
      (do Cmd.when ((← Cmd.read (·.threadReadyList)) = []) (threadUnblock (← Cmd.read (·.idleThread))) : M Unit)
      (fun _ s₂ => Queues s₂ ∧ (∀ p t, s₂.tasks p = some t → t.status ≠ .running) ∧ s₂.threadReadyList ≠ [] ∧
        Rescheduled s₁ s₂) s₁ := by
    rw [runs_read_bind, runs_read_bind]
    refine runs_when (fun hl => ?_) fun hl => ⟨hq₁, hnone, hl, Rescheduled.refl _⟩
    obtain ⟨u, -, hrun, hq₂, hsame₂⟩ := hq₁.wakeIdle hnone hl
    rw [runs_ok hrun]
    exact ⟨hq₂, nobody_update hnone (by simp), List.cons_ne_nil _ _, hsame₂⟩
  rw [runs_read_bind, runs_read_bind] at hwoken ⊢
  refine runs_seq hwoken fun _ s₂ h₂ => ?_
  obtain ⟨hq₂, hnone₂, hne, hsame₂⟩ := h₂
  refine runs_post (dispatch_spec hq₂ hnone₂ hne) fun _ s' h' => ?_
  exact ⟨h'.1, (hsame₁.trans hsame₂).trans h'.2⟩

end

end Enix.Thread
