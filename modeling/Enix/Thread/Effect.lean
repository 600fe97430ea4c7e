import Enix.Thread.Calls

/-!
# What a call can do

`Effect` lists the states that a call makes before it gives up the processor, and
`call_effect` says that there are no others: afterwards at most the processor has
gone to another task. `Asleep` follows from it: the waiters of a semaphore are
the tasks that are blocked inside its `sema_down`.
-/
set_option autoImplicit false

namespace Enix.Thread
open Enix.Core Enix.Kernel Function
open Enix.Memory (TaskStatus)

/-- The state in which a task that exits gives up the processor. -/
def Threads.exited (s : Threads) (t : Task) (v : Int) (u : Task) (parent : Nat) (tp : Task) : Threads :=
  ((s.exiting t v).informed parent tp).setTask s.cur { u with status := .hanging, resume := .out s.intr }

/-- The call is `sys_wait`, or goes round its loop. -/
def Call.waits (c : Call) (t : Task) : Prop := c = .sysWait ∨ c = .goOn ∧ t.resume = .sysWait

/-- The call is `sema_down`, or goes round its loop. -/
def Call.downs (c : Call) (s : Threads) (t : Task) (k : Nat) (old : Bool) : Prop :=
  c = .semaDown k ∧ old = s.intr ∨ c = .goOn ∧ t.resume = .semaDown k old

/-- The state that a call of the task `t` makes. -/
inductive Effect (s : Threads) (t : Task) : Call → Threads → Prop where
  | tick : Effect s t .tick
      (s.setTask s.cur { t with elapsedTicks := (t.elapsedTicks + 1) % 4294967296, resume := .out true })
  | setIntr (b : Bool) : Effect s t (.setIntr b) { s with intr := b }
  | threadStart (p prio i : Nat) (hp : s.tasks p = none) (hb : s.pidBitmap.bit i = false) :
      Effect s t (.threadStart p prio) (s.born i p (newTask (i + 1) .ready prio false))
  | idle : Effect s t .idle (s.setTask s.cur { t with status := .blocked, resume := .out s.intr })
  | semaInit (k v : Nat) (hw : (s.semas k).waiters = []) : Effect s t (.semaInit k v) (s.setSema k ⟨v % 256, []⟩)
  | sleeps (c : Call) (k : Nat) (old : Bool) (hc : c.downs s t k old) (hv : (s.semas k).value = 0) :
      Effect s t c (s.sleepsOn k old t)
  | takes (c : Call) (k : Nat) (old : Bool) (hc : c.downs s t k old) (hv : (s.semas k).value = 1) :
      Effect s t c (s.takes k old t)
  | free (k : Nat) (hw : (s.semas k).waiters = []) (hv : (s.semas k).value = 0) :
      Effect s t (.semaUp k) (s.setSema k ⟨1, []⟩)
  | wakes (k p : Nat) (rest : List Nat) (u : Task) (hw : (s.semas k).waiters = p :: rest) (hv : (s.semas k).value = 0)
      (hu : s.tasks p = some u) (hb : u.status = .blocked) : Effect s t (.semaUp k) (s.raised k p rest u)
  | ioqWait (j : Nat) (hj : s.sleepers j = none) : Effect s t (.ioqWait j) (s.sleepsIn j t)
  | wakeup (j p : Nat) (u : Task) (hj : s.sleepers j = some p) (hu : s.tasks p = some u) (hb : u.status = .blocked) :
      Effect s t (.wakeup j) (s.rung j p u)
  | threadYield : Effect s t .threadYield (s.yielding t)
  | noFork (child : Option Nat) (ok : Bool) : Effect s t (.sysFork child ok) s
  | lostPid (child : Option Nat) (ok : Bool) (i : Nat) (hb : s.pidBitmap.bit i = false) :
      Effect s t (.sysFork child ok) { s with pidBitmap := s.pidBitmap.set i true }
  | sysFork (ok : Bool) (i q : Nat) (hp : t.process = true) (hq : s.tasks q = none) (hb : s.pidBitmap.bit i = false) :
      Effect s t (.sysFork (some q) ok) (s.born i q (t.forked (i + 1)))
  | sysExit (v : Int) (u : Task) (parent : Nat) (tp : Task) (hroot : t.parentPid ≠ -1)
      (hu : (s.exiting t v).tasks s.cur = some u) (hpar : (s.exiting t v).pid2thread u.parentPid = some parent)
      (htp : (s.exiting t v).tasks parent = some tp) : Effect s t (.sysExit v) (s.exited t v u parent tp)
  | reap (c : Call) (q : Nat) (u : Task) (hc : c.waits t) (hu : s.tasks q = some u) (hst : u.status = .hanging)
      (hq : s.findHangingChild t.pid = some q) : Effect s t c ((s.buried q u).back t)
  | noChild (c : Call) (hc : c.waits t) (hno : s.findChild t.pid = none) : Effect s t c (s.back t)
  | waits (c : Call) (hc : c.waits t) (hno : s.findHangingChild t.pid = none) :
      Effect s t c (s.setTask s.cur { t with status := .waiting, resume := .sysWait })
  | threadExit (hc : s.cur = s.mainThread) : Effect s t .threadExit (s.buried s.mainThread t)

section
variable {s s₁ s' : Threads} {t u : Task} {c : Call} {k p : Nat} {old : Bool}

theorem semaDownLoop_effect (h : Steady s) (hc : s.tasks s.cur = some t) (hidle : s.cur ≠ s.idleThread) :
    runs (fun _ => True) (semaDownLoop k old) (fun _ s' => (s.semas k).value = 0 ∧ Rescheduled (s.sleepsOn k old t) s' ∨
      (s.semas k).value = 1 ∧ s' = s.takes k old t) s := by
  by_cases hv : (s.semas k).value = 0
  · exact runs_mono (semaDownLoop_sleeps h.toScheduled hc hidle hv) (fun _ he => he.elim) fun _ s' h' => .inl ⟨hv, h'.2⟩
  · exact runs_mono (semaDownLoop_takes hc hv) (fun _ _ => trivial) fun _ s' h' => .inr h'

theorem sysWait_effect (h : Steady s) (hc : s.tasks s.cur = some t) (hp : t.process = true) (hw : c.waits t) :
    runs (fun _ => True) sysWait (fun _ s' => ∃ s₁, Effect s t c s₁ ∧ Rescheduled s₁ s') s := by
  refine runs_mono (sysWait_spec h.toScheduled hc (h.notIdle hc hp)) (fun _ he => he.elim) fun r s' h' => ?_
  cases r with
  | none =>
    obtain ⟨hno, -, -, hres⟩ := h'
    exact ⟨_, .waits c hw hno, hres⟩
  | some w =>
    cases w with
    | noChild =>
      obtain ⟨hno, rfl⟩ := h'
      exact ⟨_, .noChild c hw hno, Rescheduled.refl _⟩
    | child q pid status =>
      obtain ⟨u, hq, hu, hst, -, -, rfl⟩ := h'
      exact ⟨_, .reap c q u hw hu hst hq, Rescheduled.refl _⟩

/-- A legal call that returns has one of these effects. -/
theorem call_effect (h : Steady s) (hl : c.Legal s) (hc : s.tasks s.cur = some t) :
    runs (fun _ => True) c.cmd (fun _ s' => ∃ s₁, Effect s t c s₁ ∧ Rescheduled s₁ s') s := by
  cases c with
  | tick =>
    refine runs_dropped (runs_mono (intrTimerHandler_spec h.toScheduled hc) (fun _ _ => trivial) fun _ s' h' => ?_)
    exact ⟨_, .tick, h'.2⟩
  | setIntr status => exact ⟨_, .setIntr status, Rescheduled.refl _⟩
  | threadStart p prio =>
    refine runs_dropped (runs_mono (start_spec (fun pid => newTask pid .ready prio false) (h.queues.fresh hl.2))
      (fun _ _ => trivial) fun _ s' h' => ?_)
    obtain ⟨i, -, hb, -, rfl⟩ := h'
    exact ⟨_, .threadStart p prio i hl.2 hb, Rescheduled.refl _⟩
  | idle =>
    refine runs_dropped (runs_mono (idleBlock_spec h.toScheduled hc) (fun _ _ => trivial) fun _ s' h' => ?_)
    exact ⟨_, .idle, h'.2⟩
  | semaInit k value => exact ⟨_, .semaInit k value hl.2, Rescheduled.refl _⟩
  | semaDown k =>
    have h₁ : Steady { s with intr := false } := h.setIntr
    refine runs_dropped (runs_post (semaDownLoop_effect h₁ hc hl.2) fun _ s' h' => ?_)
    rcases h' with ⟨hv, hres⟩ | ⟨hv, rfl⟩
    · exact ⟨_, .sleeps _ k s.intr (.inl ⟨rfl, rfl⟩) hv, hres.of_intr⟩
    · exact ⟨_, .takes _ k s.intr (.inl ⟨rfl, rfl⟩) hv, Rescheduled.refl _⟩
  | semaUp k =>
    cases hw : (s.semas k).waiters with
    | nil =>
      refine runs_dropped (runs_mono (semaUp_free hw) (fun _ _ => trivial) fun _ s' h' => ?_)
      obtain ⟨hv, rfl⟩ := h'
      exact ⟨_, .free k hw hv, Rescheduled.refl _⟩
    | cons p rest =>
      refine runs_dropped (runs_mono (semaUp_wakes h.queues hw) (fun _ _ => trivial) fun _ s' h' => ?_)
      obtain ⟨hv, u, hu, hb, rfl, -⟩ := h'
      exact ⟨_, .wakes k p rest u hw hv hu hb, Rescheduled.refl _⟩
  | ioqWait j =>
    refine runs_dropped (runs_mono (ioqWait_spec h.toScheduled hc hl.2) (fun _ _ => trivial) fun _ s' h' => ?_)
    exact ⟨_, .ioqWait j h'.1, h'.2.2⟩
  | wakeup j =>
    refine runs_dropped (runs_mono (wakeup_spec h.queues) (fun _ _ => trivial) fun _ s' h' => ?_)
    obtain ⟨p, u, hj, hu, hb, rfl, -⟩ := h'
    exact ⟨_, .wakeup j p u hj hu hb, Rescheduled.refl _⟩
  | threadYield =>
    refine runs_dropped (runs_mono (threadYield_spec h.toScheduled hc) (fun _ _ => trivial) fun _ s' h' => ?_)
    exact ⟨_, .threadYield, h'.2⟩
  | sysFork child ok =>
    refine runs_seq (runs_mono (sysFork_spec hc fun c hch => h.queues.fresh (hl.2 c hch)) (fun _ _ => trivial)
      fun _ _ hq => hq) fun pid s' h' => ?_
    rcases h' with ⟨-, rfl | ⟨i, hb, rfl⟩⟩ | ⟨hp, -, i, q, rfl, -, -, hb, -, rfl⟩
    · exact ⟨_, .noFork child ok, Rescheduled.refl _⟩
    · exact ⟨_, .lostPid child ok i hb, Rescheduled.refl _⟩
    · exact ⟨_, .sysFork ok i q hp (hl.2 q rfl) hb, Rescheduled.refl _⟩
  | sysExit status =>
    obtain ⟨-, u, b, hu, hp, -⟩ := hl
    rw [hc] at hu
    cases hu
    refine runs_dropped (runs_mono (sysExit_spec h.toScheduled hc (h.notIdle hc hp)) (fun _ _ => trivial) fun _ s' h' => ?_)
    obtain ⟨hroot, u, parent, tp, hu, -, hpar, htp, -, hres⟩ := h'
    exact ⟨_, .sysExit status u parent tp hroot hu hpar htp, hres⟩
  | sysWait =>
    obtain ⟨-, u, b, hu, hp, -⟩ := hl
    rw [hc] at hu
    cases hu
    exact runs_waiting (sysWait_effect h hc hp (.inl rfl)) fun _ _ hs => hs
  | threadExit =>
    refine runs_dropped (runs_mono (h.threadExit_spec hl.2) (fun _ _ => trivial) fun _ s' h' => ?_)
    obtain ⟨u, hu, -, hres⟩ := h'
    rw [hc] at hu
    cases hu
    exact ⟨_, .threadExit hl.2, hres⟩
  | goOn =>
    refine runs_waiting ?_ fun _ _ hs => hs
    unfold goOn
    rw [runs_bind_ok (runningThread_run hc)]
    have hidle : s.cur ≠ s.idleThread := by
      intro he
      obtain ⟨v, b, hv, -, hout⟩ := h.idleOut
      rw [← he] at hv
      exact hl ⟨v, b, hv, hout⟩
    cases hres : t.resume with
    | out b => exact absurd ⟨t, b, hc, hres⟩ hl
    | semaDown k old =>
      refine runs_seq (semaDownLoop_effect h hc hidle) fun _ s' h' => ?_
      rw [runs_pure]
      rcases h' with ⟨hv, hres'⟩ | ⟨hv, rfl⟩
      · exact ⟨_, .sleeps _ k old (.inr ⟨rfl, hres⟩) hv, hres'⟩
      · exact ⟨_, .takes _ k old (.inr ⟨rfl, hres⟩) hv, Rescheduled.refl _⟩
    | sysWait => exact sysWait_effect h hc (h.waitsOut s.cur t hc hres) (.inr ⟨rfl, hres⟩)

/-! ## Waiters -/

/-- The waiters of a semaphore are blocked inside its `sema_down`, and nobody else is. -/
def Threads.Asleep (s : Threads) : Prop :=
  ∀ p k, p ∈ (s.semas k).waiters ↔ ∃ t old, s.tasks p = some t ∧ t.status = .blocked ∧ t.resume = .semaDown k old

theorem Rescheduled.task (h : Rescheduled s s') (hu : s'.tasks p = some u) :
    ∃ t, s.tasks p = some t ∧ Moved t u ∧ u.resume = t.resume := by
  have hrel := h.same.tasks p
  have hat : s'.at p = s.at p := congrFun h.resume p
  unfold Threads.at at hat
  rw [hu] at hrel hat
  cases ht : s.tasks p with
  | none =>
    rw [ht] at hat
    cases hat
  | some t =>
    rw [ht] at hrel hat
    cases hrel with
    | some hm => exact ⟨t, rfl, hm, Option.some.inj hat⟩

theorem Rescheduled.asleep (h : Rescheduled s s') (ha : s.Asleep) (hq : Queues s') : s'.Asleep := by
  intro p k
  have hw : (s'.semas k).waiters = (s.semas k).waiters := by rw [h.semas]
  rw [hw]
  constructor
  · intro hp
    obtain ⟨t, old, ht, -, hres⟩ := (ha p k).1 hp
    have hp' : p ∈ (s'.semas k).waiters := by
      rw [hw]
      exact hp
    obtain ⟨-, u, hu, hb⟩ := hq.waits (.sema k) p hp'
    obtain ⟨t', ht', -, hr⟩ := h.task hu
    rw [ht] at ht'
    cases ht'
    exact ⟨u, old, hu, hb, by rw [hr, hres]⟩
  · rintro ⟨u, old, hu, hb, hres⟩
    obtain ⟨t, ht, hm, hr⟩ := h.task hu
    have hst : t.status = .blocked := by
      rcases hm.status with he | ⟨-, he | he⟩
      · rw [← he, hb]
      · rw [hb] at he
        cases he
      · rw [hb] at he
        cases he
    exact (ha p k).2 ⟨t, old, ht, hst, by rw [← hr, hres]⟩

/-- Statuses and places stay. -/
theorem Threads.Asleep.congr (ha : s.Asleep)
    (ht : ∀ p, (s'.tasks p).map (fun t => (t.status, t.resume)) = (s.tasks p).map fun t => (t.status, t.resume))
    (hw : s'.semas = s.semas) : s'.Asleep := by
  have hiff : ∀ {a : Threads} {p k}, (∃ t old, a.tasks p = some t ∧ t.status = .blocked ∧ t.resume = .semaDown k old) ↔
      ∃ old, (a.tasks p).map (fun t => (t.status, t.resume)) = some (.blocked, .semaDown k old) := by
    intro a p k
    simp only [Option.map_eq_some_iff, Prod.mk.injEq]
    constructor
    · rintro ⟨t, old, h⟩
      exact ⟨old, t, h⟩
    · rintro ⟨old, t, h⟩
      exact ⟨t, old, h⟩
  intro p k
  rw [hw, hiff, ht p, ← hiff]
  exact ha p k

/-- One task changes, which is not among the waiters before or after. -/
theorem Threads.Asleep.update {o : Option Task} (ha : s.Asleep) (ht : s'.tasks = update s.tasks p o)
    (hw : s'.semas = s.semas) (hp : ∀ k, p ∉ (s.semas k).waiters)
    (ho : ∀ u k old, o = some u → u.status = .blocked → u.resume ≠ .semaDown k old) : s'.Asleep := by
  intro q k
  rw [hw, ht]
  by_cases hq : q = p
  · rw [hq, update_self]
    constructor
    · intro hm
      exact absurd hm (hp k)
    · rintro ⟨u, old, hu, hb, hres⟩
      exact absurd hres (ho u k old hu hb)
  · rw [update_of_ne hq]
    exact ha q k

/-- The first waiter wakes up. -/
theorem Threads.Asleep.raised {v : Nat} {rest : List Nat} (ha : s.Asleep) (hq : Queues s)
    (hw : (s.semas k).waiters = p :: rest) :
    ((s.woken p u).setSema k ⟨v, rest⟩).Asleep := by
  have hnd := hq.queueNodup (.sema k)
  have hwq : s.queue (.sema k) = p :: rest := hw
  rw [hwq, List.nodup_cons] at hnd
  intro q j
  have htask : ((s.woken p u).setSema k ⟨v, rest⟩).tasks = Function.update s.tasks p (some { u with status := .ready }) := rfl
  have hmem : q ∈ (((s.woken p u).setSema k ⟨v, rest⟩).semas j).waiters ↔ q ≠ p ∧ q ∈ (s.semas j).waiters := by
    by_cases hj : j = k
    · rw [hj, hw]
      have he : ((s.woken p u).setSema k ⟨v, rest⟩).semas k = ⟨v, rest⟩ := update_self ..
      rw [he, List.mem_cons]
      constructor
      · intro hm
        exact ⟨fun heq => hnd.1 (heq ▸ hm), .inr hm⟩
      · intro hm
        exact hm.2.resolve_left hm.1
    · have he : ((s.woken p u).setSema k ⟨v, rest⟩).semas j = s.semas j := update_of_ne hj _ _
      rw [he]
      constructor
      · intro hm
        refine ⟨fun heq => hj ?_, hm⟩
        have hpk : p ∈ s.queue (.sema k) := by simp [hwq]
        have := hq.once (.sema j) (.sema k) p (heq ▸ hm) hpk
        cases this
        rfl
      · intro hm
        exact hm.2
  rw [hmem, htask]
  by_cases hqp : q = p
  · rw [hqp, update_self]
    simp
  · rw [update_of_ne hqp, ha q j]
    simp [hqp]

/-- The task that runs joins the waiters. -/
theorem Threads.Asleep.sleepsOn (ha : s.Asleep) (hno : ∀ k, s.cur ∉ (s.semas k).waiters) :
    (s.sleepsOn k old t).Asleep := by
  intro q j
  have htask : (s.sleepsOn k old t).tasks =
      Function.update s.tasks s.cur (some { t with status := .blocked, resume := .semaDown k old }) := rfl
  have hmem : q ∈ ((s.sleepsOn k old t).semas j).waiters ↔ q ∈ (s.semas j).waiters ∨ q = s.cur ∧ j = k := by
    by_cases hj : j = k
    · have he : (s.sleepsOn k old t).semas k = { s.semas k with waiters := (s.semas k).waiters ++ [s.cur] } :=
        update_self ..
      rw [hj, he]
      simp
    · have he : (s.sleepsOn k old t).semas j = s.semas j := update_of_ne hj _ _
      rw [he]
      simp [hj]
  rw [hmem, htask]
  by_cases hq : q = s.cur
  · rw [hq, update_self]
    constructor
    · intro hm
      obtain ⟨-, rfl⟩ := hm.resolve_left (hno j)
      exact ⟨_, old, rfl, rfl, rfl⟩
    · rintro ⟨u, old', hu, -, hres⟩
      cases hu
      cases hres
      exact .inr ⟨rfl, rfl⟩
  · rw [update_of_ne hq, ha q j]
    simp [hq]

theorem Steady.not_waiting (h : Steady s) (hb : ∀ t, s.tasks p = some t → t.status ≠ .blocked) (k : Nat) :
    p ∉ (s.semas k).waiters := by
  intro hp
  obtain ⟨-, t, ht, hst⟩ := h.queues.waits (.sema k) p hp
  exact hb t ht hst

theorem asleep_adopted (ha : s.Asleep) (pid : Int) : (s.adopted pid).Asleep := by
  refine ha.congr (fun p => ?_) rfl
  unfold Threads.adopted
  simp only [Option.map_map]
  cases s.tasks p with
  | none => rfl
  | some t =>
    simp only [Option.map_some, comp_apply]
    split
    · rfl
    · rfl

theorem Threads.Asleep.setSema {w : Semaphore} (ha : s.Asleep) (hw : w.waiters = (s.semas k).waiters) :
    (s.setSema k w).Asleep := by
  intro p j
  have he : ((s.setSema k w).semas j).waiters = (s.semas j).waiters := by
    by_cases hj : j = k
    · rw [hj, ← hw]
      exact congrArg Semaphore.waiters (update_self ..)
    · exact congrArg Semaphore.waiters (update_of_ne hj _ _)
  rw [he]
  exact ha p j

theorem Threads.Asleep.buried {q : Nat} (ha : s.Asleep) (hq : ∀ k, q ∉ (s.semas k).waiters) : (s.buried q t).Asleep := by
  refine ha.update rfl rfl hq fun u k old he => ?_
  split at he
  · cases he
    simp
  · cases he

theorem Scheduled.asleep_informed {parent : Nat} {tp : Task} (h : Scheduled s) (ha : s.Asleep)
    (htp : s.tasks parent = some tp) : (s.informed parent tp).Asleep := by
  unfold Threads.informed
  split
  · rename_i hw
    refine ha.update rfl rfl (fun k hp => ?_) fun u k old he => ?_
    · obtain ⟨-, u, hu, hb⟩ := h.queues.waits (.sema k) parent hp
      rw [htp] at hu
      cases hu
      rw [hw] at hb
      cases hb
    · cases he
      simp
  · exact ha

/-- Every effect keeps it so. -/
theorem Effect.asleep (he : Effect s t c s₁) (h : Steady s) (hc : s.tasks s.cur = some t) (ha : s.Asleep) : s₁.Asleep := by
  have hr := h.running hc
  have hcur : ∀ k, s.cur ∉ (s.semas k).waiters := by
    refine h.not_waiting fun u hu => ?_
    rw [hc] at hu
    cases hu
    simp [hr]
  have hset : ∀ {u : Task}, (∀ k old, u.status = .blocked → u.resume ≠ .semaDown k old) → (s.setTask s.cur u).Asleep := by
    intro u hu
    refine ha.update rfl rfl hcur fun u' k old he => ?_
    cases he
    exact hu k old
  cases he with
  | tick => exact hset (by simp)
  | setIntr b => exact ha
  | threadStart p prio i hp hb =>
    refine ha.update rfl rfl (h.not_waiting (by simp [hp])) fun u k old he => ?_
    cases he
    simp [newTask]
  | idle => exact hset (by simp)
  | semaInit k v hw => exact ha.setSema hw.symm
  | sleeps c k old _ hv => exact ha.sleepsOn hcur
  | takes c k old _ hv =>
    have hk : (s.setSema k { s.semas k with value := 0 }).Asleep := ha.setSema rfl
    refine hk.update rfl rfl (fun j => ?_) fun u j old he => ?_
    · have he : ((s.setSema k { s.semas k with value := 0 }).semas j).waiters = (s.semas j).waiters :=
        congrFun (queue_setSema_value s k 0) (.sema j)
      rw [he]
      exact hcur j
    · cases he
      simp
  | free k hw hv => exact ha.setSema hw.symm
  | wakes k p rest u hw hv hu hb => exact ha.raised h.queues hw
  | ioqWait j hj => exact hset (by simp)
  | wakeup j p u hj hu hb =>
    refine ha.update rfl rfl (fun k hp => ?_) fun u' k old he => ?_
    · have hpj : p ∈ s.queue (.ioq j) := by simp [Threads.queue, hj]
      cases h.queues.once (.sema k) (.ioq j) p hp hpj
    · cases he
      simp
  | threadYield => exact hset (by simp)
  | noFork child ok => exact ha
  | lostPid child ok i hb => exact ha
  | sysFork ok i q hp hq hb =>
    refine ha.update rfl rfl (h.not_waiting (by simp [hq])) fun u k old he => ?_
    cases he
    simp [Task.forked]
  | sysExit v u parent tp hroot hu hpar htp =>
    have h₁ : Scheduled (s.exiting t v) := (h.toScheduled.setCur (u := { t with exitStatus := v.bmod 256 }) hr).adopted t.pid
    have ha₁ : (s.exiting t v).Asleep := asleep_adopted (hset (u := { t with exitStatus := v.bmod 256 }) (by simp [hr])) t.pid
    have hsemas : ((s.exiting t v).informed parent tp).semas = s.semas := by
      unfold Threads.informed
      split
      · rfl
      · rfl
    refine (h₁.asleep_informed ha₁ htp).update rfl rfl (fun k => ?_) fun u' k old he => ?_
    · rw [hsemas]
      exact hcur k
    · cases he
      simp
  | reap c q u _ hu hst hq =>
    have hno : ∀ k, q ∉ (s.semas k).waiters := by
      refine h.not_waiting fun u' hu' => ?_
      rw [hu] at hu'
      cases hu'
      simp [hst]
    exact (ha.buried hno).update rfl rfl hcur fun u' k old he => by
      cases he
      simp
  | noChild c _ hno => exact hset (by simp)
  | waits c _ hno => exact hset (by simp)
  | threadExit hm => exact ha.buried (hm ▸ hcur)

theorem Steady.asleep_call (h : Steady s) (ha : s.Asleep) (hl : c.Legal s) {ev : Option Event}
    (he : c.cmd s = .ok (ev, s')) : s'.Asleep := by
  obtain ⟨t, hc, -⟩ := h.inCharge
  obtain ⟨s₁, heff, hres⟩ := runs_of_ok (call_effect h hl hc) he
  have hs' := runs_of_ok (h.call hl) he
  exact hres.asleep (heff.asleep h hc ha) hs'.queues

theorem booted_asleep (main init idle : Nat) : (booted main init idle).Asleep := by
  intro p k
  have hw : ((booted main init idle).semas k).waiters = [] := booted_queue main init idle (.sema k)
  rw [hw]
  constructor
  · intro hp
    cases hp
  · rintro ⟨t, old, ht, hb, -⟩
    rw [booted_tasks] at ht
    split at ht
    · cases ht
      cases hb
    · split at ht
      · cases ht
        cases hb
      · split at ht
        · cases ht
          cases hb
        · cases ht

theorem reachable_asleep {l : List Event} (h : Reachable s l) : Steady s ∧ s.Asleep := by
  obtain ⟨main, init, idle, s₀, calls, hi, hm, hii, hinit, hsteps⟩ := h
  rw [threadInit_run hi hm hii] at hinit
  cases hinit
  refine hsteps.invariant_logged (I := fun s _ => Steady s ∧ s.Asleep) (fun c s _ ev s' hs hl he => ?_)
    ⟨booted_steady hi hm hii, booted_asleep main init idle⟩
  exact ⟨runs_of_ok (hs.1.call hl) he, hs.1.asleep_call hs.2 hl he⟩

/-! ## Away from one semaphore -/

/-- `p` is no task, or one that has ended. -/
def Threads.gone (s : Threads) (p : Nat) : Prop :=
  ∀ t, s.tasks p = some t → t.status = .hanging ∨ t.status = .died

/-- The call is one of semaphore `k`, but for the loop of `sema_down`. -/
def Call.uses (k : Nat) : Call → Prop
  | .semaInit j _ => j = k
  | .semaDown j => j = k
  | .semaUp j => j = k
  | _ => False

instance (k : Nat) (c : Call) : Decidable (c.uses k) :=
  match c with
  | .semaInit j _ => inferInstanceAs (Decidable (j = k))
  | .semaDown j => inferInstanceAs (Decidable (j = k))
  | .semaUp j => inferInstanceAs (Decidable (j = k))
  | .tick | .setIntr _ | .threadStart _ _ | .idle | .ioqWait _ | .wakeup _ | .threadYield | .sysFork _ _ | .sysExit _
  | .sysWait | .threadExit | .goOn => inferInstanceAs (Decidable False)

/-- The task that runs ends. -/
def Call.ends : Call → Prop
  | .sysExit _ => True
  | .threadExit => True
  | _ => False

/-- Semaphore `k` is as before, nobody but the task that runs has moved, and nobody
has entered `sema_down`. -/
structure Away (k : Nat) (s : Threads) (c : Call) (s₁ : Threads) : Prop where
  idle : s₁.idleThread = s.idleThread
  sema : s₁.semas k = s.semas k
  other : ∀ p, p ≠ s.cur → s₁.at p = s.at p ∨ s.gone p ∧ ∀ old, s₁.at p ≠ some (.semaDown k old)
  cur : ∀ old, s₁.at s.cur ≠ some (.semaDown k old)
  gone : ∀ p, s₁.gone p → s.gone p ∨ p = s.cur ∧ c.ends

theorem at_some (ht : s.tasks p = some t) : s.at p = some t.resume := by
  unfold Threads.at
  rw [ht]
  rfl

/-- One task has changed, and it runs or has not been there. -/
theorem Away.update (hi : s₁.idleThread = s.idleThread) (ht : s₁.tasks = update s.tasks p (some u))
    (hs : s₁.semas k = s.semas k)
    (hp : p = s.cur ∨ s.gone p) (hu : ∀ old, u.resume ≠ .semaDown k old)
    (hcur : p ≠ s.cur → ∀ old, s.at s.cur ≠ some (.semaDown k old))
    (hlive : u.status = .hanging ∨ u.status = .died → p = s.cur ∧ c.ends) : Away k s c s₁ := by
  have hat : ∀ q, q ≠ p → s₁.at q = s.at q := by
    intro q hq
    unfold Threads.at
    rw [ht, update_of_ne hq]
  have hself : s₁.at p = some u.resume := at_some (by rw [ht, update_self])
  have hnew : ∀ old, s₁.at p ≠ some (.semaDown k old) := by
    intro old he
    rw [hself] at he
    exact hu old (Option.some.inj he)
  refine ⟨hi, hs, fun q hq => ?_, fun old => ?_, fun q hq => ?_⟩
  · by_cases hqp : q = p
    · rw [hqp] at hq ⊢
      exact .inr ⟨hp.resolve_left hq, hnew⟩
    · exact .inl (hat q hqp)
  · by_cases hc : p = s.cur
    · rw [← hc]
      exact hnew old
    · rw [hat s.cur (Ne.symm hc)]
      exact hcur hc old
  · by_cases hqp : q = p
    · rw [hqp] at hq ⊢
      exact .inr (hlive (hq u (by rw [ht, update_self])))
    · refine .inl fun v hv => hq v ?_
      rw [ht, update_of_ne hqp]
      exact hv

/-- Places stay and nobody ends. -/
theorem Away.same (hi : s₁.idleThread = s.idleThread) (hat : s₁.at = s.at) (hs : s₁.semas k = s.semas k)
    (hcur : ∀ old, s.at s.cur ≠ some (.semaDown k old)) (hgone : ∀ p, s₁.gone p → s.gone p) : Away k s c s₁ := by
  refine ⟨hi, hs, fun p _ => .inl (congrFun hat p), fun old => ?_, fun p hp => .inl (hgone p hp)⟩
  rw [hat]
  exact hcur old

theorem gone_woken {q : Nat} (h : (s.woken q u).gone p) : s.gone p := by
  by_cases hp : p = q
  · have hready := h { u with status := .ready } (by rw [hp]; exact update_self ..)
    simp at hready
  · intro v hv
    exact h v ((update_of_ne hp _ _).trans hv)

theorem at_woken (hu : s.tasks p = some u) : (s.woken p u).at = s.at :=
  at_update (u := { u with status := .ready }) hu rfl rfl

theorem Away.trans {s₂ : Threads} (h₁ : Away k s c s₁) (h₂ : Away k s₁ c s₂) (hc : s₁.cur = s.cur) : Away k s c s₂ := by
  refine ⟨h₂.idle.trans h₁.idle, h₂.sema.trans h₁.sema, fun p hp => ?_, fun old => ?_, fun p hp => ?_⟩
  · rcases h₂.other p (hc ▸ hp) with he | ⟨hg, hno⟩
    · rcases h₁.other p hp with he' | ⟨hg', hno'⟩
      · exact .inl (he.trans he')
      · exact .inr ⟨hg', fun old => by rw [he]; exact hno' old⟩
    · rcases h₁.gone p hg with hg' | ⟨hpc, -⟩
      · exact .inr ⟨hg', hno⟩
      · exact absurd hpc hp
  · have := h₂.cur old
    rwa [hc] at this
  · rcases h₂.gone p hp with hg | ⟨hpc, he⟩
    · exact h₁.gone p hg
    · exact .inr ⟨hpc.trans hc, he⟩

/-- Who ends is gone. -/
theorem Away.buried {q : Nat} (hu : s.tasks q = some u) (hq : s.gone q ∨ q = s.cur ∧ c.ends)
    (hcur : ∀ old, s.at s.cur ≠ some (.semaDown k old)) : Away k s c (s.buried q u) := by
  have hother : ∀ p, p ≠ q → (s.buried q u).tasks p = s.tasks p := fun p hp => update_of_ne hp _ _
  have hat : ∀ p, (s.buried q u).at p = s.at p ∨ p = q ∧ (s.buried q u).at p = none := by
    intro p
    unfold Threads.at
    by_cases hp : p = q
    · have he : (s.buried q u).tasks q = if q = s.mainThread then some { u with status := .died } else none :=
        update_self ..
      rw [hp, he, hu]
      split
      · exact .inl rfl
      · exact .inr ⟨rfl, rfl⟩
    · rw [hother p hp]
      exact .inl rfl
  refine ⟨rfl, rfl, fun p hp => ?_, fun old he => ?_, fun p hp => ?_⟩
  · rcases hat p with he | ⟨hpq, he⟩
    · exact .inl he
    · have hgone : s.gone p := by
        rw [hpq] at hp ⊢
        exact hq.resolve_right fun h => hp h.1
      exact .inr ⟨hgone, fun old => by simp [he]⟩
  · rcases hat s.cur with hs | ⟨-, hs⟩
    · exact hcur old (hs ▸ he)
    · rw [hs] at he
      cases he
  · by_cases hpq : p = q
    · rw [hpq]
      exact hq
    · refine .inl fun v hv => hp v ?_
      rw [hother p hpq]
      exact hv

theorem at_adopted (s : Threads) (pid : Int) : (s.adopted pid).at = s.at := by
  funext p
  unfold Threads.at Threads.adopted
  simp only [Option.map_map]
  cases s.tasks p with
  | none => rfl
  | some t =>
    simp only [Option.map_some, comp_apply]
    split
    · rfl
    · rfl

theorem gone_adopted {pid : Int} (h : (s.adopted pid).gone p) : s.gone p := by
  intro t ht
  have he : (s.adopted pid).tasks p =
      some (if p ∈ s.threadAllList ∧ t.parentPid = pid then { t with parentPid := 1 } else t) := by
    unfold Threads.adopted
    simp [ht]
  have hst := h _ he
  split at hst
  · exact hst
  · exact hst

theorem Away.informed {parent : Nat} {tp : Task} (htp : s.tasks parent = some tp)
    (hcur : ∀ old, s.at s.cur ≠ some (.semaDown k old)) : Away k s c (s.informed parent tp) := by
  unfold Threads.informed
  split
  · exact .same rfl (at_woken htp) rfl hcur fun _ => gone_woken
  · exact .same rfl rfl rfl hcur fun _ h => h

/-- What is away from semaphore `k`. -/
theorem Effect.away (he : Effect s t c s₁) (h : Steady s) (hc : s.tasks s.cur = some t) (hk : ¬ c.uses k)
    (hres : ∀ old, t.resume ≠ .semaDown k old) : Away k s c s₁ := by
  have hr := h.running hc
  have hat : ∀ old, s.at s.cur ≠ some (.semaDown k old) := by
    intro old he
    rw [at_some hc] at he
    exact hres old (Option.some.inj he)
  have hset : ∀ {s₂ : Threads} {u : Task}, s₂.idleThread = s.idleThread →
      s₂.tasks = update s.tasks s.cur (some u) → s₂.semas k = s.semas k →
      (∀ old, u.resume ≠ .semaDown k old) → u.status ≠ .hanging ∧ u.status ≠ .died → Away k s c s₂ := by
    intro s₂ u hi ht hs hu hst
    refine .update hi ht hs (.inl rfl) hu (fun hne => absurd rfl hne) fun hd => ?_
    rcases hd with hd | hd
    · exact absurd hd hst.1
    · exact absurd hd hst.2
  have hne : ∀ {j old}, c.downs s t j old → k ≠ j := by
    intro j old hd
    rcases hd with ⟨rfl, -⟩ | ⟨-, hj⟩
    · exact fun he => hk he.symm
    · exact fun he => hres old (he ▸ hj)
  cases he with
  | tick => exact hset rfl rfl rfl (by simp) (by simp [hr])
  | setIntr b => exact .same rfl rfl rfl hat fun _ hg => hg
  | threadStart p prio i hp hb =>
    exact .update (u := newTask (i + 1) .ready prio false) rfl rfl rfl (.inr fun t ht => by rw [hp] at ht; cases ht)
      (by simp [newTask]) (fun _ => hat) (by simp [newTask])
  | idle => exact hset rfl rfl rfl (by simp) (by simp)
  | semaInit j v hw => exact .same rfl rfl (update_of_ne (Ne.symm hk) _ _) hat fun _ hg => hg
  | sleeps c j old hd hv => exact hset rfl rfl (update_of_ne (hne hd) _ _) (by simpa using fun hj => (hne hd hj.symm).elim) (by simp)
  | takes c j old hd hv => exact hset rfl rfl (update_of_ne (hne hd) _ _) (by simp) (by simp [hr])
  | free j hw hv => exact .same rfl rfl (update_of_ne (Ne.symm hk) _ _) hat fun _ hg => hg
  | wakes j p rest u hw hv hu hb =>
    exact .same rfl (at_woken hu) (update_of_ne (Ne.symm hk) _ _) hat fun _ => gone_woken (u := u)
  | ioqWait j hj => exact hset rfl rfl rfl (by simp) (by simp)
  | wakeup j p u hj hu hb => exact .same rfl (at_woken hu) rfl hat fun _ => gone_woken (u := u)
  | threadYield => exact hset rfl rfl rfl (by simp) (by simp)
  | noFork child ok => exact .same rfl rfl rfl hat fun _ hg => hg
  | lostPid child ok i hb => exact .same rfl rfl rfl hat fun _ hg => hg
  | sysFork ok i q hp hq hb =>
    exact .update (u := t.forked (i + 1)) rfl rfl rfl (.inr fun t ht => by rw [hq] at ht; cases ht)
      (by simp [Task.forked]) (fun _ => hat) (by simp [Task.forked])
  | sysExit v u parent tp hroot hu hpar htp =>
    have hexit : Away k s (.sysExit v) (s.setTask s.cur { t with exitStatus := v.bmod 256 }) :=
      hset rfl rfl rfl hres (by simp [hr])
    have h₁ : Away k s (.sysExit v) (s.exiting t v) := by
      refine .trans hexit (.same rfl (at_adopted _ _) rfl (fun old => ?_) fun _ => gone_adopted) rfl
      rw [at_some (t := { t with exitStatus := v.bmod 256 }) (update_self ..)]
      simpa using hres old
    have h₂ := h₁.trans (.informed htp h₁.cur) rfl
    have hcur := (informed_frame (s.exiting t v) parent tp).1
    refine h₂.trans (.update (u := { u with status := .hanging, resume := .out s.intr }) (p := s.cur) rfl rfl rfl
      (.inl hcur.symm) (by simp) (fun hp => absurd hcur.symm hp) fun _ => ⟨hcur.symm, trivial⟩) hcur
  | reap c q u hw hu hst hq =>
    have h₁ : Away k s c (s.buried q u) := .buried hu (.inl fun v hv => by rw [hu] at hv; cases hv; exact .inl hst) hat
    refine h₁.trans (.update (u := { t with resume := .out false }) (p := s.cur) rfl rfl rfl (.inl rfl) (by simp)
      (fun hp => absurd rfl hp) fun hd => ?_) rfl
    simp [hr] at hd
  | noChild c hw hno => exact hset rfl rfl rfl (by simp) (by simp [hr])
  | waits c hw hno => exact hset rfl rfl rfl (by simp) (by simp)
  | threadExit hm => exact .buried (hm ▸ hc) (.inr ⟨hm.symm, trivial⟩) hat

theorem Rescheduled.gone (h : Rescheduled s s') (hp : s'.gone p) : s.gone p := by
  intro t ht
  have hrel := h.same.tasks p
  rw [ht] at hrel
  cases hu : s'.tasks p with
  | none =>
    rw [hu] at hrel
    cases hrel
  | some u =>
    rw [hu] at hrel
    cases hrel with
    | some hm =>
      rcases hm.status with he | ⟨-, he | he⟩
      · rw [← he]
        exact hp u hu
      · rcases hp u hu with hd | hd
        · rw [hd] at he
          cases he
        · rw [hd] at he
          cases he
      · rcases hp u hu with hd | hd
        · rw [hd] at he
          cases he
        · rw [hd] at he
          cases he

theorem Away.rescheduled (h : Away k s c s₁) (hr : Rescheduled s₁ s') : Away k s c s' := by
  refine ⟨hr.same.idleThread.trans h.idle, ?_, fun p hp => ?_, fun old => ?_, fun p hp => h.gone p (hr.gone hp)⟩
  · rw [hr.semas]
    exact h.sema
  · rw [hr.resume]
    exact h.other p hp
  · rw [hr.resume]
    exact h.cur old

/-- Who is no call of slot `j` leaves it alone. -/
theorem Effect.sleepers {j : Nat} (he : Effect s t c s₁) (hw : c ≠ .ioqWait j) (hr : c ≠ .wakeup j) :
    s₁.sleepers j = s.sleepers j := by
  cases he with
  | ioqWait i hi => exact update_of_ne (fun h : j = i => hw (by rw [h])) _ _
  | wakeup i p u hi hu hb => exact update_of_ne (fun h : j = i => hr (by rw [h])) _ _
  | sysExit v u parent tp hroot hu hpar htp =>
    change ((s.exiting t v).informed parent tp).sleepers j = s.sleepers j
    unfold Threads.informed
    split
    · rfl
    · rfl
  | _ => rfl

theorem Steady.sleepers_call {j : Nat} (h : Steady s) (hl : c.Legal s) (hw : c ≠ .ioqWait j) (hr : c ≠ .wakeup j)
    {ev : Option Event} (he : c.cmd s = .ok (ev, s')) : s'.sleepers j = s.sleepers j := by
  obtain ⟨t, hc, -⟩ := h.inCharge
  obtain ⟨s₁, heff, hres⟩ := runs_of_ok (call_effect h hl hc) he
  rw [hres.sleepers]
  exact heff.sleepers hw hr

/-- Only `goOn` is made by a task that is inside. -/
theorem Call.Legal.outside (hl : c.Legal s) (hc : c ≠ .goOn) : s.outside := by
  have hsys : s.inSyscall → s.outside := by
    rintro ⟨-, t, b, ht, -, hout⟩
    exact ⟨t, b, ht, hout⟩
  cases c with
  | goOn => exact absurd rfl hc
  | sysFork child ok => exact hsys hl.1
  | sysExit v => exact hsys hl
  | sysWait => exact hsys hl
  | setIntr b => exact hl
  | semaUp j => exact hl
  | wakeup j => exact hl
  | threadYield => exact hl
  | tick => exact hl.1
  | threadStart p prio => exact hl.1
  | idle => exact hl.1
  | semaInit j v => exact hl.1
  | semaDown j => exact hl.1
  | ioqWait j => exact hl.1
  | threadExit => exact hl.1

theorem Steady.away_call (h : Steady s) (hl : c.Legal s) (hk : ¬ c.uses k)
    (hgo : c = .goOn → ∀ old, s.at s.cur ≠ some (.semaDown k old)) {ev : Option Event} (he : c.cmd s = .ok (ev, s')) :
    Away k s c s' := by
  obtain ⟨t, hc, -⟩ := h.inCharge
  obtain ⟨s₁, heff, hres⟩ := runs_of_ok (call_effect h hl hc) he
  refine (heff.away h hc hk fun old hr => ?_).rescheduled hres
  by_cases hg : c = .goOn
  · exact hgo hg old (by rw [at_some hc, hr])
  · obtain ⟨u, b, hu, hout⟩ := hl.outside hg
    rw [hc] at hu
    cases hu
    rw [hr] at hout
    cases hout

end

end Enix.Thread
