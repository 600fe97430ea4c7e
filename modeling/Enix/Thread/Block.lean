import Enix.Thread.Schedule

/-!
# Giving up the processor

What each function does that may end in `schedule`: a state that the function
itself makes, and then another task has the processor. The functions whose
ASSERTs can fail (`sema_up`, `wakeup`) say which.
-/
set_option autoImplicit false

namespace Enix.Thread
open Enix.Core Enix.Kernel Function
open Enix.Memory (TaskStatus)

section
variable {s s' : Threads} {t u : Task} {k j p : Nat} {rest : List Nat} {old : Bool}
  {x : Spot}

theorem queue_setTask (s : Threads) (p : Nat) (t : Task) : (s.setTask p t).queue = s.queue := by
  funext x
  cases x with
  | sema k => rfl
  | ioq j => rfl

@[simp] theorem setTask_tasks (s : Threads) (p : Nat) (t : Task) :
    (s.setTask p t).tasks = update s.tasks p (some t) := rfl

theorem Queues.intr (h : Queues s) (b : Bool) : Queues { s with intr := b } := h.congr rfl rfl rfl rfl rfl

theorem Rescheduled.of_intr {b : Bool} (h : Rescheduled { s with intr := b } s') : Rescheduled s s' :=
  ⟨⟨h.same.tasks, h.same.threadAllList, h.same.pidBitmap, h.same.mainThread, h.same.idleThread⟩, h.semas, h.sleepers,
    h.resume⟩

theorem threadBlock_spec (stat : TaskStatus) (back : Bool → Resume) (hc : s.tasks s.cur = some t) (hstat : stat = .blocked ∨ stat = .waiting ∨ stat = .hanging)
    (h : Queues (s.setTask s.cur { t with status := stat, resume := back s.intr })) :
    runs (fun _ => False) (threadBlock stat back) (fun _ s' => Scheduled s' ∧
      Rescheduled (s.setTask s.cur { t with status := stat, resume := back s.intr }) s') s := by
  have hc₁ : ({ s with intr := false } : Threads).tasks ({ s with intr := false } : Threads).cur = some t := hc
  unfold threadBlock
  rw [runs_bind_ok (guard_run hstat _ s), runs_bind_ok (intrDisable_run s), runs_bind_ok (runningThread_run hc₁),
    runs_read_bind, runs_bind_ok (setTask_run _ _ _)]
  refine runs_post (schedule_spec (h.intr false) (update_self ..) rfl) fun _ s' h' => ⟨h'.1, h'.2.of_intr⟩

/-- The task that runs can stop doing so, on no other list. -/
theorem Scheduled.stops (h : Scheduled s) (hc : s.tasks s.cur = some t) (hrun : t.status = .running)
    (hu : u.status ≠ .running ∧ u.status ≠ .ready) (hidle : s.cur = s.idleThread → u.status = .blocked) :
    Queues (s.setTask s.cur u) := by
  refine h.queues.leave hc hrun hu hidle rfl rfl rfl rfl ?_ ?_
  · rw [queue_setTask]
    exact h.queues.queueNodup
  · intro x p hp
    rw [queue_setTask] at hp
    exact .inl hp

theorem Scheduled.running (h : Scheduled s) (hc : s.tasks s.cur = some t) : t.status = .running := by
  obtain ⟨u, hu, hr⟩ := h.inCharge
  rw [hc] at hu
  cases hu
  exact hr

theorem statusIs {y : TaskStatus} (s : Threads) (p : Nat) :
    (∃ t, s.tasks p = some t ∧ t.status = y) ↔ (s.tasks p).map (·.status) = some y := by
  simp [Option.map_eq_some_iff]

/-- The lists depend on the tasks through their statuses only. -/
theorem Scheduled.of_status (h : Scheduled s) (ht : ∀ p, (s'.tasks p).map (·.status) = (s.tasks p).map (·.status))
    (hr : s'.threadReadyList = s.threadReadyList) (hi : s'.idleThread = s.idleThread) (hc : s'.cur = s.cur)
    (hx : s'.queue = s.queue) : Scheduled s' := by
  have hst : ∀ y p, (∃ t, s'.tasks p = some t ∧ t.status = y) ↔ ∃ t, s.tasks p = some t ∧ t.status = y := by
    intro y p
    rw [statusIs, statusIs, ht p]
  refine ⟨⟨fun p v hv hrun => ?_, ?_, fun p => ?_, ?_, ?_, fun y p hp => ?_, ?_⟩, ?_⟩
  · rw [hc]
    obtain ⟨w, hw, hwr⟩ := (hst .running p).1 ⟨v, hv, hrun⟩
    exact h.queues.running p w hw hwr
  · rw [hr]
    exact h.queues.nodup
  · rw [hr, hst]
    exact h.queues.ready p
  · rw [hi]
    obtain ⟨v, hv, hb | hb | hb⟩ := h.queues.idle
    · obtain ⟨w, hw, hwb⟩ := (hst .blocked _).2 ⟨v, hv, hb⟩
      exact ⟨w, hw, .inl hwb⟩
    · obtain ⟨w, hw, hwb⟩ := (hst .running _).2 ⟨v, hv, hb⟩
      exact ⟨w, hw, .inr (.inl hwb)⟩
    · obtain ⟨w, hw, hwb⟩ := (hst .ready _).2 ⟨v, hv, hb⟩
      exact ⟨w, hw, .inr (.inr hwb)⟩
  · rw [hx]
    exact h.queues.queueNodup
  · rw [hx] at hp
    rw [hi]
    exact ⟨(h.queues.waits y p hp).1, (hst .blocked p).2 (h.queues.waits y p hp).2⟩
  · rw [hx]
    exact h.queues.once
  · unfold Threads.inCharge
    rw [hc]
    exact (hst .running s.cur).2 h.inCharge

/-- A change of the task that runs which lets it run. -/
theorem Scheduled.setCur (h : Scheduled s) (hu : u.status = .running) : Scheduled (s.setTask s.cur u) := by
  obtain ⟨t, hc, hr⟩ := h.inCharge
  refine h.of_status (fun p => ?_) rfl rfl rfl (queue_setTask s s.cur u)
  by_cases hp : p = s.cur
  · simp [hp, hc, hr, hu]
  · simp [hp]

theorem Scheduled.intr (h : Scheduled s) (b : Bool) : Scheduled { s with intr := b } := ⟨h.queues.intr b, h.inCharge⟩

/-- The idle thread, or one that nothing else wakes, is blocked. -/
theorem idleBlock_spec (h : Scheduled s) (hc : s.tasks s.cur = some t) :
    runs (fun _ => False) (threadBlock .blocked .out) (fun _ s' => Scheduled s' ∧
      Rescheduled (s.setTask s.cur { t with status := .blocked, resume := .out s.intr }) s') s :=
  threadBlock_spec .blocked .out hc (.inl rfl) (h.stops hc (h.running hc) (by simp) fun _ => rfl)

/-- The state in which a task yields. -/
def Threads.yielding (s : Threads) (t : Task) : Threads :=
  { s.setTask s.cur { t with status := .ready, resume := .out s.intr } with
    threadReadyList := s.threadReadyList ++ [s.cur] }

theorem threadYield_spec (h : Scheduled s) (hc : s.tasks s.cur = some t) :
    runs (fun _ => False) threadYield (fun _ s' => Scheduled s' ∧ Rescheduled (s.yielding t) s') s := by
  have hr := h.running hc
  have hno : s.cur ∉ s.threadReadyList := h.queues.not_ready hc (by simp [hr])
  have hc₁ : ({ s with intr := false } : Threads).tasks ({ s with intr := false } : Threads).cur = some t := hc
  unfold threadYield
  rw [runs_bind_ok (intrDisable_run s), runs_read_bind, runs_bind_ok (runningThread_run hc₁), runs_read_bind,
    runs_bind_ok (guard_run hno _ _), runs_change_bind, runs_bind_ok (setTask_run _ _ _)]
  have hq : Queues (s.yielding t) :=
    h.queues.toReady (u := { t with status := .ready, resume := .out s.intr }) rfl hno
      (h.queues.not_waits hc (by simp [hr])) rfl (List.perm_append_singleton _ _) rfl rfl rfl
  refine runs_post (schedule_spec (hq.intr false) (update_self ..) rfl) fun _ s' h' => ⟨h'.1, h'.2.of_intr⟩

/-- A tick of the clock leaves the task that runs on the processor, or moves it to
the end of the ready list. -/
theorem intrTimerHandler_spec (h : Scheduled s) (hc : s.tasks s.cur = some t) :
    runs (fun _ => False) intrTimerHandler (fun _ s' => Scheduled s' ∧
      Rescheduled (s.setTask s.cur { t with elapsedTicks := (t.elapsedTicks + 1) % 4294967296, resume := .out true }) s')
      s := by
  have hr := h.running hc
  unfold intrTimerHandler
  rw [runs_change_bind, runs_bind_ok (runningThread_run (s := { s with intr := false }) hc), runs_read_bind,
    runs_bind_ok (setTask_run _ _ _)]
  have h₁ : Scheduled ({ s with intr := false }.setTask s.cur
      { t with elapsedTicks := (t.elapsedTicks + 1) % 4294967296, resume := .out true }) :=
    (h.intr false).setCur (u := { t with elapsedTicks := (t.elapsedTicks + 1) % 4294967296, resume := .out true }) hr
  refine runs_ite (fun _ => ?_) fun _ => ?_
  · refine runs_post (schedule_spec h₁.queues (update_self ..) rfl) fun _ s' h' => ⟨h'.1, h'.2.of_intr⟩
  · rw [runs_read_bind, runs_bind_ok (setTask_run _ _ _), runs_ok (intrSetStatus_run _ _)]
    refine ⟨(h₁.setCur (u := { t with
      elapsedTicks := (t.elapsedTicks + 1) % 4294967296, resume := .out true, ticks := t.ticks - 1 }) hr).intr true, ?_⟩
    refine .of_update (u := { t with
      elapsedTicks := (t.elapsedTicks + 1) % 4294967296, resume := .out true, ticks := t.ticks - 1 }) (update_self ..)
      ⟨rfl, .inl rfl⟩ ?_ rfl ⟨rfl, rfl, rfl, rfl⟩ ⟨rfl, rfl⟩
    simp [Threads.setTask]

/-! ## Semaphores -/

/-- The task that runs goes to sleep among the waiters of semaphore `k`. -/
def Threads.sleepsOn (s : Threads) (k : Nat) (old : Bool) (t : Task) : Threads :=
  (s.setSema k { s.semas k with waiters := (s.semas k).waiters ++ [s.cur] }).setTask s.cur
    { t with status := .blocked, resume := .semaDown k old }

/-- The task that runs has taken semaphore `k`. -/
def Threads.takes (s : Threads) (k : Nat) (old : Bool) (t : Task) : Threads :=
  { (s.setSema k { s.semas k with value := 0 }).setTask s.cur { t with resume := .out old } with intr := old }

theorem queue_setSema (s : Threads) (k : Nat) (w : Semaphore) (x : Spot) :
    (s.setSema k w).queue x = if x = .sema k then w.waiters else s.queue x := by
  cases x with
  | sema k' =>
    by_cases hk : k' = k
    · simp [Threads.queue, Threads.setSema, hk]
    · simp [Threads.queue, Threads.setSema, hk]
  | ioq j => rfl

/-- The waiters stay, the value of a semaphore changes. -/
theorem queue_setSema_value (s : Threads) (k v : Nat) :
    (s.setSema k { s.semas k with value := v }).queue = s.queue := by
  funext x
  rw [queue_setSema]
  split
  · rename_i hx
    rw [hx]
    rfl
  · rfl

/-- A task that stops running may join one queue. -/
theorem Scheduled.joins (h : Scheduled s) (hc : s.tasks s.cur = some t) (hidle : s.cur ≠ s.idleThread)
    (hu : u.status = .blocked) (ht : s'.tasks = update s.tasks s.cur (some u))
    (hr : s'.threadReadyList = s.threadReadyList) (hi : s'.idleThread = s.idleThread) (hcur : s'.cur = s.cur)
    (hx : ∀ y, s'.queue y = if y = x then s.queue y ++ [s.cur] else s.queue y) : Queues s' := by
  have hrun := h.running hc
  have hno : ∀ y, s.cur ∉ s.queue y := h.queues.not_waits hc (by simp [hrun])
  refine h.queues.leave hc hrun (by simp [hu]) (fun _ => hu) ht hr hi hcur (fun y => ?_) fun y p hp => ?_
  · rw [hx y]
    split
    · exact (h.queues.queueNodup y).append (List.nodup_singleton _) (by simpa using hno y)
    · exact h.queues.queueNodup y
  · rw [hx y] at hp
    split at hp
    · rename_i hy
      rcases List.mem_append.1 hp with hp | hp
      · exact .inl hp
      · refine .inr ⟨List.mem_singleton.1 hp, hu, hidle, fun z hz => ?_⟩
        rw [hx z] at hz
        split at hz
        · rename_i hzx
          rw [hzx, hy]
        · exact absurd hz (hno z)
    · exact .inl hp

/-- A semaphore at 0: the task goes to sleep. -/
theorem semaDownLoop_sleeps (h : Scheduled s) (hc : s.tasks s.cur = some t) (hidle : s.cur ≠ s.idleThread)
    (hv : (s.semas k).value = 0) :
    runs (fun _ => False) (semaDownLoop k old) (fun _ s' => Scheduled s' ∧ Rescheduled (s.sleepsOn k old t) s') s := by
  have hno : s.cur ∉ (s.semas k).waiters := h.queues.not_waits hc (by simp [h.running hc]) (.sema k)
  unfold semaDownLoop
  rw [runs_read_bind, if_pos hv, runs_read_bind, runs_bind_ok (guard_run hno _ s), runs_change_bind]
  refine threadBlock_spec (s := s.setSema k _) .blocked (fun _ => .semaDown k old) hc (.inl rfl) ?_
  refine h.joins (u := { t with status := .blocked, resume := .semaDown k old }) (x := .sema k) hc hidle rfl rfl rfl rfl rfl
    fun y => ?_
  rw [queue_setTask, queue_setSema]
  split
  · rename_i hy
    rw [hy]
    rfl
  · rfl

/-- A semaphore at 1: the task takes it and is back outside. -/
theorem semaDownLoop_takes (hc : s.tasks s.cur = some t) (hv : (s.semas k).value ≠ 0) :
    runs (fun e => e = .assertion .semaDown ∧ (s.semas k).value ≠ 1) (semaDownLoop k old)
      (fun _ s' => (s.semas k).value = 1 ∧ s' = s.takes k old t) s := by
  unfold semaDownLoop
  rw [runs_read_bind, if_neg hv, runs_change_bind]
  refine runs_guard_bind (fun hg => ⟨rfl, by omega⟩) fun hg => ?_
  have h1 : (s.semas k).value = 1 := by omega
  unfold comeBack
  rw [runs_bind_ok (runningThread_run (s := s.setSema k _) hc), runs_read_bind, runs_bind_ok (setTask_run _ _ _),
    runs_ok (intrSetStatus_run _ _), hg]
  exact ⟨h1, rfl⟩

theorem Scheduled.takes (h : Scheduled s) (hc : s.tasks s.cur = some t) : Scheduled (s.takes k old t) := by
  have h₁ : Scheduled (s.setSema k { s.semas k with value := 0 }) :=
    ⟨h.queues.congr rfl rfl rfl rfl (queue_setSema_value s k 0), h.inCharge⟩
  have hrun := h.running hc
  exact (h₁.setCur (u := { t with resume := .out old }) hrun).intr old

/-- `sema_up` with nobody waiting. -/
theorem semaUp_free (hw : (s.semas k).waiters = []) :
    runs (fun e => e = .assertion .semaUp ∧ (s.semas k).value ≠ 0) (semaUp k)
      (fun _ s' => (s.semas k).value = 0 ∧ s' = s.setSema k ⟨1, []⟩) s := by
  unfold semaUp
  rw [runs_bind_ok (intrDisable_run s), runs_read_bind]
  refine runs_guard_bind (fun hv => ⟨rfl, hv⟩) fun hv => ?_
  have hsema : s.semas k = ⟨0, []⟩ := by
    have hv' : (s.semas k).value = 0 := hv
    cases hs : s.semas k with
    | mk v w =>
      rw [hs] at hv' hw
      simp at hv' hw
      rw [hv', hw]
  simp only [hsema]
  rw [runs_read_bind, runs_change_bind, hsema, runs_bind_ok (guard_run (by simp) _ _), runs_ok (intrSetStatus_run _ _)]
  simp [Threads.setSema]

/-- The first waiter of semaphore `k` is awake. -/
def Threads.raised (s : Threads) (k p : Nat) (rest : List Nat) (t : Task) : Threads :=
  (s.woken p t).setSema k ⟨1, rest⟩

/-- The head of a queue leaves it and wakes up. -/
theorem Queues.wakes {z : Threads} (h : Queues s) (hq : s.queue x = p :: rest) (hx : ∀ y, z.queue y = if y = x then rest else s.queue y)
    (ht : z.tasks = s.tasks) (hr : z.threadReadyList = s.threadReadyList) (hi : z.idleThread = s.idleThread)
    (hc : z.cur = s.cur) : ∃ t, s.tasks p = some t ∧ t.status = .blocked ∧ Queues z ∧ ∀ y, p ∉ z.queue y := by
  have hp : p ∈ s.queue x := by simp [hq]
  obtain ⟨-, t, hpt, hb⟩ := h.waits x p hp
  have hnd := h.queueNodup x
  rw [hq, List.nodup_cons] at hnd
  have hsub : ∀ y q, q ∈ z.queue y → q ∈ s.queue y := by
    intro y q hm
    rw [hx y] at hm
    split at hm
    · rename_i hy
      rw [hy, hq]
      exact List.mem_cons_of_mem _ hm
    · exact hm
  refine ⟨t, hpt, hb, ⟨?_, ?_, ?_, ?_, fun y => ?_, fun y q hm => ?_, fun y z q hy hz => ?_⟩, fun y hm => ?_⟩
  · rw [ht, hc]
    exact h.running
  · rw [hr]
    exact h.nodup
  · rw [ht, hr]
    exact h.ready
  · rw [ht, hi]
    exact h.idle
  · rw [hx y]
    split
    · exact hnd.2
    · exact h.queueNodup y
  · rw [ht, hi]
    exact h.waits y q (hsub y q hm)
  · exact h.once y z q (hsub y q hy) (hsub z q hz)
  · have hyx : y = x := h.once y x p (hsub y p hm) hp
    rw [hx y, if_pos hyx] at hm
    exact hnd.1 hm

/-- `sema_up` with a waiter, which wakes up. -/
theorem semaUp_wakes (h : Queues s) (hw : (s.semas k).waiters = p :: rest) :
    runs (fun e => e = .assertion .semaUp ∧ (s.semas k).value ≠ 0) (semaUp k) (fun _ s' => (s.semas k).value = 0 ∧
      ∃ t, s.tasks p = some t ∧ t.status = .blocked ∧ s' = s.raised k p rest t ∧ Queues s') s := by
  obtain ⟨t, ht, hb, hq, hno⟩ := h.wakes (z := s.setSema k ⟨0, rest⟩) (x := .sema k) hw (queue_setSema s k _) rfl rfl rfl rfl
  unfold semaUp
  rw [runs_bind_ok (intrDisable_run s), runs_read_bind]
  refine runs_guard_bind (fun hv => ⟨rfl, hv⟩) fun hv => ?_
  have hsema : s.semas k = ⟨0, p :: rest⟩ := by
    have hv' : (s.semas k).value = 0 := hv
    cases hs : s.semas k with
    | mk v w =>
      rw [hs] at hv' hw
      simp at hv' hw
      rw [hv', hw]
  simp only [hsema]
  obtain ⟨hrun, hq'⟩ :=
    Queues.unblock (s := ({ s with intr := false } : Threads).setSema k ⟨0, rest⟩) (hq.intr false) ht (.inl hb) hno
  rw [runs_change_bind, runs_bind_ok hrun, runs_read_bind, runs_change_bind]
  have hset : ((({ s with intr := false } : Threads).setSema k ⟨0, rest⟩).woken p t).semas k = ⟨0, rest⟩ := update_self ..
  rw [hset, runs_bind_ok (guard_run (by simp) _ _), runs_ok (intrSetStatus_run _ _)]
  have he : ({ ((({ s with intr := false } : Threads).setSema k ⟨0, rest⟩).woken p t).setSema k ⟨(0 + 1) % 256, rest⟩ with
      intr := s.intr } : Threads) = s.raised k p rest t := by
    simp [Threads.raised, Threads.woken, Threads.setSema]
  refine ⟨trivial, t, ht, hb, he, hq'.congr ?_ ?_ rfl rfl ?_⟩
  · rw [he]
    rfl
  · rw [he]
    rfl
  · rw [he]
    funext y
    have hy : (s.raised k p rest t).queue y = if y = .sema k then rest else s.queue y := queue_setSema _ k _ y
    rw [hy]
    exact (queue_setSema ({ s with intr := false } : Threads) k ⟨0, rest⟩ y).symm

/-! ## Queues -/

/-- The task that runs goes to sleep in slot `j`. -/
def Threads.sleepsIn (s : Threads) (j : Nat) (t : Task) : Threads :=
  (s.setSleeper j (some s.cur)).setTask s.cur { t with status := .blocked, resume := .out s.intr }

theorem queue_setSleeper (s : Threads) (j : Nat) (o : Option Nat) (x : Spot) :
    (s.setSleeper j o).queue x = if x = .ioq j then o.toList else s.queue x := by
  cases x with
  | sema k => rfl
  | ioq j' =>
    by_cases hj : j' = j
    · simp [Threads.queue, Threads.setSleeper, hj]
    · simp [Threads.queue, Threads.setSleeper, hj]

theorem ioqWait_spec (h : Scheduled s) (hc : s.tasks s.cur = some t) (hidle : s.cur ≠ s.idleThread) :
    runs (fun e => e = .assertion .ioqWait ∧ s.sleepers j ≠ none) (ioqWait j) (fun _ s' => s.sleepers j = none ∧
      Scheduled s' ∧ Rescheduled (s.sleepsIn j t) s') s := by
  unfold ioqWait
  rw [runs_read_bind]
  refine runs_guard_bind (fun hj => ⟨rfl, hj⟩) fun hj => ?_
  rw [runs_read_bind, runs_change_bind]
  refine runs_mono (threadBlock_spec (s := s.setSleeper j (some s.cur)) .blocked .out hc (.inl rfl) ?_)
    (fun _ he => he.elim) fun _ s' h' => ⟨hj, h'⟩
  refine h.joins (u := { t with status := .blocked, resume := .out s.intr }) (x := .ioq j) hc hidle rfl rfl rfl rfl rfl
    fun y => ?_
  rw [queue_setTask, queue_setSleeper]
  split
  · rename_i hy
    simp [hy, Threads.queue, hj]
  · rfl

/-- The sleeper of slot `j` is awake. -/
def Threads.rung (s : Threads) (j p : Nat) (t : Task) : Threads := (s.woken p t).setSleeper j none

theorem wakeup_spec (h : Queues s) :
    runs (fun e => e = .assertion .wakeup ∧ s.sleepers j = none) (wakeup j) (fun _ s' => ∃ p t,
      s.sleepers j = some p ∧ s.tasks p = some t ∧ t.status = .blocked ∧ s' = s.rung j p t ∧ Queues s') s := by
  unfold wakeup
  rw [runs_read_bind]
  cases hj : s.sleepers j with
  | none => exact ⟨rfl, rfl⟩
  | some p =>
    have hqj : s.queue (.ioq j) = p :: [] := by simp [Threads.queue, hj]
    obtain ⟨t, ht, hb, hq, hno⟩ :=
      h.wakes (z := s.setSleeper j none) hqj (queue_setSleeper s j none) rfl rfl rfl rfl
    have hready : p ∉ s.threadReadyList := h.not_ready ht (by simp [hb])
    rw [runs_bind_ok (threadUnblock_run ht (.inl hb) hready)]
    exact ⟨p, t, rfl, ht, hb, rfl, (hq.unblock ht (.inl hb) hno).2⟩

end

end Enix.Thread
