import Enix.Thread.Family

/-!
# The calls and the families

Every call of a run is a step of the family of its tasks (`call_clan`), so every
reachable state is a family (`reachable_family`). From there: pids and parents
(`family`), the exit status that `sys_wait` reports (`wait_status`), and the
wake-up that an orphan misses (`waiters_woken`).
-/
set_option autoImplicit false

namespace Enix.Thread
open Enix.Core Enix.Kernel Function
open Enix.Memory (TaskStatus)

section
variable {s s₁ s' : Threads} {t u tp : Task} {c : Call} {l : List Event} {p q i k parent : Nat} {old : Bool} {v : Int}

/-! ## One call, one step -/

theorem Moved.kin (h : Moved t u) : u.kin = t.kin := by
  have hst : stage u.status = stage t.status := by
    rcases h.status with he | ⟨ht, hu⟩
    · rw [he]
    · rcases ht with ht | ht | ht <;> rcases hu with hu | hu <;> rw [ht, hu] <;> rfl
  unfold Task.kin
  rw [hst, h.same]

theorem SameTasks.clan (h : SameTasks s s') : s'.clan = s.clan := by
  have hkin : (fun p => (s'.tasks p).map (·.kin)) = fun p => (s.tasks p).map (·.kin) := by
    funext p
    have hp := h.tasks p
    generalize s.tasks p = a at *
    generalize s'.tasks p = b at *
    cases hp with
    | none => rfl
    | some hm => exact congrArg some hm.kin
  unfold Threads.clan
  rw [hkin, h.threadAllList, h.pidBitmap, h.mainThread]

theorem clan_kin (ht : s.tasks p = some t) : s.clan.kin p = some t.kin := by
  unfold Threads.clan
  simp [ht]

theorem kin_clan {k : Kin} (h : s.clan.kin p = some k) : ∃ t, s.tasks p = some t ∧ t.kin = k :=
  Option.map_eq_some_iff.1 h

theorem clan_setTask (s : Threads) (p : Nat) (u : Task) :
    (s.setTask p u).clan = { s.clan with kin := update s.clan.kin p (some u.kin) } := by
  refine Clan.ext (funext fun q => ?_) rfl rfl rfl
  unfold Threads.clan Threads.setTask
  by_cases hq : q = p
  · simp [hq]
  · simp [hq]

/-- A task that is moved at most. -/
theorem clan_setTask_same (ht : s.tasks p = some t) (hk : u.kin = t.kin) : (s.setTask p u).clan = s.clan := by
  rw [clan_setTask, hk, ← clan_kin ht, update_eq_self]

theorem clan_born (s : Threads) (i p : Nat) (u : Task) : (s.born i p u).clan = s.clan.birth i p u.kin := by
  refine Clan.ext (funext fun q => ?_) rfl rfl rfl
  unfold Threads.clan Threads.born Clan.birth
  by_cases hq : q = p
  · simp [hq]
  · simp [hq]

theorem clan_buried (s : Threads) (q : Nat) (t : Task) :
    (s.buried q t).clan = s.clan.bury q t.kin (decide (q = s.mainThread)) := by
  refine Clan.ext (funext fun r => ?_) rfl rfl rfl
  unfold Threads.clan Threads.buried Clan.bury
  by_cases hr : r = q
  · by_cases hm : q = s.mainThread
    · simp [hr, hm, Task.kin, stage]
    · simp [hr, hm]
  · simp [hr]

/-- The stage of a task that runs. -/
theorem kin_live (h : t.status = .running) : t.kin.stage = .live := by
  unfold Task.kin
  rw [h]
  rfl

/-- What is rescheduled from a state with the same family. -/
theorem Clan.Step.quiet (h : Rescheduled s₁ s') (hc : s₁.clan = s.clan) : Clan.Step s.clan p none s'.clan := by
  rw [h.same.clan, hc]
  exact .same

/-- A task after the adoption of the children of `pid`. -/
def Task.adopt (all : List Nat) (pid : Int) (q : Nat) (t : Task) : Task :=
  if q ∈ all ∧ t.parentPid = pid then { t with parentPid := 1 } else t

theorem exiting_tasks (s : Threads) (t : Task) (v : Int) (q : Nat) : (s.exiting t v).tasks q =
    (update s.tasks s.cur (some { t with exitStatus := v.bmod 256 }) q).map (Task.adopt s.threadAllList t.pid q) := rfl

/-- Only the children change, and only their parent. -/
theorem adopt_kin {w : Task} (hf : Family s.clan l) (hq : s.tasks q = some w) (hw : u.parentPid = w.parentPid)
    (hpos : 1 ≤ t.pid) : (Task.adopt s.threadAllList t.pid q u).kin =
      { u.kin with parentPid := if u.parentPid = t.pid then 1 else u.parentPid } := by
  unfold Task.adopt
  by_cases hp : u.parentPid = t.pid
  · have hm : q ∈ s.threadAllList := by
      refine (hf.listed q).2 ⟨w.kin, clan_kin hq, ?_⟩
      refine hf.processes q w.kin (clan_kin hq) ?_
      cases hproc : w.process with
      | true => exact hproc
      | false =>
        have hroot : w.parentPid = -1 := hf.orphan q w.kin (clan_kin hq) hproc
        omega
    rw [if_pos ⟨hm, hp⟩, if_pos hp]
    rfl
  · rw [if_neg fun h => hp h.2, if_neg hp]
    rfl

/-- The parent is awake in any case. -/
theorem informed_tasks (s : Threads) (htp : s.tasks parent = some tp) (q : Nat) : (s.informed parent tp).tasks q =
    (s.tasks q).map fun w => if q = parent ∧ w.status = .waiting then { w with status := .ready } else w := by
  unfold Threads.informed
  by_cases hw : tp.status = .waiting
  · rw [if_pos hw]
    by_cases hq : q = parent
    · simp [Threads.woken, hq, htp, hw]
    · simp [Threads.woken, hq]
  · rw [if_neg hw]
    cases hq : s.tasks q with
    | none => rfl
    | some w =>
      have hno : ¬ (q = parent ∧ w.status = .waiting) := by
        rintro ⟨rfl, hst⟩
        rw [htp] at hq
        cases hq
        exact hw hst
      simp [hno]

theorem clan_exited (hf : Family s.clan l) (hc : s.tasks s.cur = some t) (hrun : t.status = .running)
    (hu : (s.exiting t v).tasks s.cur = some u) (htp : (s.exiting t v).tasks parent = some tp) :
    (s.exited t v u parent tp).clan = s.clan.exit s.cur t.kin v parent := by
  have hlive : t.kin.stage ≠ .died := by simp [kin_live hrun]
  have hpos : 1 ≤ t.pid := hf.pid_pos (clan_kin hc) hlive
  have hall : (s.exited t v u parent tp).threadAllList = s.threadAllList := (informed_frame _ parent tp).2.2.2
  have hpids : (s.exited t v u parent tp).pidBitmap = s.pidBitmap ∧
      (s.exited t v u parent tp).mainThread = s.mainThread := by
    unfold Threads.exited Threads.informed
    split
    · exact ⟨rfl, rfl⟩
    · exact ⟨rfl, rfl⟩
  refine Clan.ext (funext fun q => ?_) hall hpids.1 hpids.2
  change ((s.exited t v u parent tp).tasks q).map (·.kin) = (s.clan.kin q).map (Clan.afterExit s.cur t.kin v parent q)
  by_cases hq : q = s.cur
  · rw [exiting_tasks, update_self] at hu
    have hu' := adopt_kin (u := { t with exitStatus := v.bmod 256 }) hf hc rfl hpos
    rw [Option.some.inj hu] at hu'
    have he : (s.exited t v u parent tp).tasks s.cur = some { u with status := .hanging, resume := .out s.intr } :=
      update_self ..
    have hk : ({ u with status := .hanging, resume := .out s.intr } : Task).kin = { u.kin with stage := .hanging } := rfl
    rw [hq, clan_kin hc, he, Option.map_some, Option.map_some, hk, hu']
    simp [Clan.afterExit, Task.kin]
    rfl
  · have he : (s.exited t v u parent tp).tasks q = ((s.exiting t v).informed parent tp).tasks q := update_of_ne hq _ _
    rw [he, informed_tasks _ htp, exiting_tasks, update_of_ne hq]
    cases hw : s.tasks q with
    | none => simp [Threads.clan, hw]
    | some w =>
      have hk := adopt_kin (u := w) hf hw rfl hpos
      rw [clan_kin hw]
      simp only [Option.map_some, Option.some.injEq, Clan.afterExit, hq, if_false]
      have hst : (Task.adopt s.threadAllList t.pid q w).status = w.status := by
        unfold Task.adopt
        split
        · rfl
        · rfl
      rw [hst]
      have hks : w.kin.stage = .waiting ↔ w.status = .waiting := by
        unfold Task.kin stage
        cases w.status <;> simp
      by_cases hp : q = parent ∧ w.status = .waiting
      · have hwoken : ∀ x : Task, ({ x with status := .ready } : Task).kin = { x.kin with stage := .live } := fun _ => rfl
        rw [if_pos hp, hwoken, hk]
        simp [hks, hp]
        rfl
      · rw [if_neg hp, hk]
        simp [hks, hp]
        rfl

/-- No access through NULL. -/
def NotFault (e : Stop) : Prop := e ≠ .fault

theorem notFault {a : Site} : NotFault (.assertion a) := by simp [NotFault]

theorem Barren.notFault {a : Site} {e : Stop} (h : Barren a e) : NotFault e := by
  rcases h with rfl | rfl
  · exact Thread.notFault
  · exact Thread.notFault

theorem semaDownLoop_clan (h : Steady s) (hidle : s.cur ≠ s.idleThread) :
    runs NotFault (semaDownLoop k old) (fun _ s' => s'.clan = s.clan) s := by
  obtain ⟨t, hc, hr⟩ := h.inCharge
  have hlive := kin_live hr
  by_cases hv : (s.semas k).value = 0
  · refine runs_mono (semaDownLoop_sleeps h.toScheduled hc hidle hv) (fun _ he => he.elim) fun _ s' h' => ?_
    rw [h'.2.same.clan]
    refine clan_setTask_same (s := s.setSema k _) hc ?_
    unfold Task.kin
    rw [hr]
    rfl
  · refine runs_mono (semaDownLoop_takes hc hv) (fun _ he => he.1 ▸ notFault) fun _ s' h' => ?_
    rw [h'.2]
    exact clan_setTask_same (s := s.setSema k _) hc rfl

theorem woken_clan (ht : s.tasks p = some t) (hb : t.status = .blocked) : (s.woken p t).clan = s.clan := by
  refine clan_setTask_same (s := { s with threadReadyList := p :: s.threadReadyList }) ht ?_
  unfold Task.kin
  rw [hb]
  rfl

/-- `sys_wait`, and its loop. -/
theorem sysWait_clan (h : Steady s) (hf : Family s.clan l) (hc : s.tasks s.cur = some t) (hp : t.process = true) :
    runs NotFault sysWait (fun r s' => Clan.Step s.clan s.cur (r.map (.waited s.cur)) s'.clan) s := by
  have hr := h.running hc
  have hlive := kin_live hr
  refine runs_mono (sysWait_spec h.toScheduled hc (h.notIdle hc hp)) (fun _ he => he.elim) fun r s' h' => ?_
  have hback : ∀ {s₁ : Threads}, s₁.tasks s₁.cur = some t → (s₁.back t).clan = s₁.clan := by
    intro s₁ h₁
    exact clan_setTask_same (s := { s₁ with intr := false }) h₁ rfl
  cases r with
  | none =>
    obtain ⟨hno, -, -, hres⟩ := h'
    rw [hres.same.clan, clan_setTask]
    refine .sleep t.kin (clan_kin hc) hp hlive fun q k hq hpar hst => ?_
    obtain ⟨u, hu, rfl⟩ := kin_clan hq
    have hlisted : q ∈ s.threadAllList := (hf.listed q).2 ⟨u.kin, hq, by simp [hst]⟩
    refine findHangingChild_none hno hlisted hu hpar ?_
    have hst' : stage u.status = .hanging := hst
    cases hus : u.status <;> rw [hus] at hst' <;> first | rfl | cases hst'
  | some w =>
    cases w with
    | noChild =>
      obtain ⟨hno, rfl⟩ := h'
      rw [hback hc]
      refine .noChild t.kin (clan_kin hc) fun q k hq hk => ?_
      obtain ⟨u, hu, rfl⟩ := kin_clan hk
      exact findChild_none hno hq hu
    | child q pid status =>
      obtain ⟨u, hfind, hu, hst, rfl, rfl, rfl⟩ := h'
      obtain ⟨hq, u', hu', hpar, -⟩ := findHangingChild_some hfind
      rw [hu] at hu'
      cases hu'
      have hqc : s.cur ≠ q := by
        intro he
        rw [← he, hc] at hu
        cases hu
        rw [hr] at hst
        cases hst
      have hkst : u.kin.stage = .hanging := by
        unfold Task.kin
        rw [hst]
        rfl
      have hmain : q ≠ s.mainThread := by
        intro he
        obtain ⟨k, hk, hproc⟩ := hf.main
        have hkq : s.clan.kin q = some k := by
          rw [he]
          exact hk
        rw [clan_kin hu] at hkq
        cases hkq
        rcases hf.stages q u.kin (clan_kin hu) hproc with hl | hd
        · rw [hl] at hkst
          cases hkst
        · rw [hd] at hkst
          cases hkst
      rw [hback ((update_of_ne hqc _ _).trans hc), clan_buried, decide_eq_false hmain]
      exact .reap q t.kin u.kin (clan_kin hc) (clan_kin hu) hpar hkst

/-- Pids stay. -/
theorem exiting_pid (hc : s.tasks s.cur = some t) (q : Nat) :
    ((s.exiting t v).tasks q).map (·.pid) = (s.tasks q).map (·.pid) := by
  have hadopt : ∀ w : Task, (Task.adopt s.threadAllList t.pid q w).pid = w.pid := by
    intro w
    unfold Task.adopt
    split
    · rfl
    · rfl
  rw [exiting_tasks, Option.map_map]
  by_cases hq : q = s.cur
  · rw [hq] at hadopt ⊢
    simp [hc, hadopt]
  · rw [update_of_ne hq]
    cases s.tasks q with
    | none => rfl
    | some w => simp [hadopt]

/-- `sys_exit` finds its parent. -/
theorem sysExit_clan (h : Steady s) (hf : Family s.clan l) (hc : s.tasks s.cur = some t) (hp : t.process = true) :
    runs NotFault (sysExit v) (fun _ s' => Clan.Step s.clan s.cur (some (.exited s.cur v)) s'.clan) s := by
  have hr := h.running hc
  have hlive := kin_live hr
  have hpos : 1 ≤ t.pid := hf.pid_pos (clan_kin hc) (by simp [hlive])
  have hself : t.parentPid ≠ t.pid := hf.notSelf _ _ (clan_kin hc)
  -- the parent that it looks for is the one it had
  have hpar : ∀ u, (s.exiting t v).tasks s.cur = some u → u.parentPid = t.parentPid := by
    intro u hu
    rw [exiting_tasks, update_self, Option.map_some] at hu
    have hk := adopt_kin (u := { t with exitStatus := v.bmod 256 }) hf hc rfl hpos
    rw [Option.some.inj hu] at hk
    have hkp : u.kin.parentPid = t.parentPid := by
      rw [hk]
      simp [hself]
    exact hkp
  refine runs_mono (sysExit_spec h.toScheduled hc (h.notIdle hc hp)) (fun e he => ?_) fun _ s' h' => ?_
  · rcases he with ⟨rfl, -⟩ | ⟨-, hroot, u, hu, hnone⟩
    · exact notFault
    · obtain ⟨q, k, hk, hkp, hkpid, -⟩ := hf.parent _ _ (clan_kin hc) hp (hf.not_init (clan_kin hc) hp hroot)
      obtain ⟨w, hw, rfl⟩ := kin_clan hk
      have hlisted : q ∈ s.threadAllList := (hf.listed q).2 ⟨w.kin, hk, hf.processes q w.kin hk hkp⟩
      have hno := List.find?_eq_none.1 hnone q hlisted
      have hpid : w.pid = t.parentPid := hkpid
      rw [exiting_pid hc q, hw, hpar u hu, Option.map_some, hpid] at hno
      simp at hno
  · obtain ⟨hroot, u, parent, tp, hu, -, hfind, htp, -, hres⟩ := h'
    obtain ⟨hall, tp', htp', hpid⟩ := pid2thread_task hfind
    rw [htp] at htp'
    cases htp'
    have hclan : s'.clan = s.clan.exit s.cur t.kin v parent := by
      rw [hres.same.clan]
      exact clan_exited hf hc hr hu htp
    have hpid' := exiting_pid (v := v) hc parent
    rw [htp, Option.map_some] at hpid'
    obtain ⟨w, hw, hwpid⟩ := Option.map_eq_some_iff.1 hpid'.symm
    rw [hclan]
    refine .exit v t.kin w.kin parent (clan_kin hc) hp hlive hroot hall (clan_kin hw) ?_
    have he : w.pid = t.parentPid := by rw [hwpid, hpid, hpar u hu]
    exact he

theorem call_clan (h : Steady s) (hf : Family s.clan l) (hl : c.Legal s) :
    runs NotFault c.cmd (fun ev s' => Clan.Step s.clan s.cur ev s'.clan) s := by
  obtain ⟨t, hc, hr⟩ := h.inCharge
  have hlive := kin_live hr
  cases c with
  | tick =>
    refine runs_dropped (runs_mono (intrTimerHandler_spec h.toScheduled hc) (fun _ he => he.elim) fun _ s' h' => ?_)
    exact .quiet h'.2 (clan_setTask_same hc rfl)
  | setIntr status => exact .same
  | threadStart p prio =>
    refine runs_dropped (runs_mono (start_spec (fun pid => newTask pid .ready prio false) (h.queues.fresh hl.2))
      (fun _ he => he.notFault) fun _ s' h' => ?_)
    obtain ⟨i, -, hb, -, rfl⟩ := h'
    rw [clan_born]
    exact .start i p (by simp [Threads.clan, hl.2]) hb
  | idle =>
    refine runs_dropped (runs_mono (idleBlock_spec h.toScheduled hc) (fun _ he => he.elim) fun _ s' h' => ?_)
    refine .quiet h'.2 (clan_setTask_same hc ?_)
    unfold Task.kin
    rw [hr]
    rfl
  | semaInit k value => exact .same
  | semaDown k =>
    have h₁ : Steady { s with intr := false } := h.setIntr
    refine runs_dropped (runs_post (semaDownLoop_clan h₁ hl.2) fun _ s' h' => ?_)
    rw [h']
    exact .same
  | semaUp k =>
    cases hw : (s.semas k).waiters with
    | nil =>
      refine runs_dropped (runs_mono (semaUp_free hw) (fun _ he => he.1 ▸ notFault) fun _ s' h' => ?_)
      rw [h'.2]
      exact .same
    | cons p rest =>
      refine runs_dropped (runs_mono (semaUp_wakes h.queues hw) (fun _ he => he.1 ▸ notFault) fun _ s' h' => ?_)
      obtain ⟨-, u, hu, hb, rfl, -⟩ := h'
      have he : (s.raised k p rest u).clan = s.clan := woken_clan hu hb
      rw [he]
      exact .same
  | ioqWait j =>
    refine runs_dropped (runs_mono (ioqWait_spec h.toScheduled hc hl.2) (fun _ he => he.1 ▸ notFault) fun _ s' h' => ?_)
    refine .quiet h'.2.2 (clan_setTask_same (s := s.setSleeper j _) hc ?_)
    unfold Task.kin
    rw [hr]
    rfl
  | wakeup j =>
    refine runs_dropped (runs_mono (wakeup_spec h.queues) (fun _ he => he.1 ▸ notFault) fun _ s' h' => ?_)
    obtain ⟨p, u, -, hu, hb, rfl, -⟩ := h'
    have he : (s.rung j p u).clan = s.clan := woken_clan hu hb
    rw [he]
    exact .same
  | threadYield =>
    refine runs_dropped (runs_mono (threadYield_spec h.toScheduled hc) (fun _ he => he.elim) fun _ s' h' => ?_)
    refine .quiet h'.2 (clan_setTask_same (s := { s with threadReadyList := s.threadReadyList ++ [s.cur] }) hc ?_)
    unfold Task.kin
    rw [hr]
    rfl
  | sysFork child ok =>
    refine runs_seq (runs_mono (sysFork_spec hc fun c hch => h.queues.fresh (hl.2 c hch)) (fun _ he => he.notFault)
      fun _ _ hq => hq) fun pid s' h' => ?_
    rcases h' with ⟨rfl, rfl | ⟨i, hb, rfl⟩⟩ | ⟨hp, -, i, q, hch, rfl, -, hb, -, rfl⟩
    · exact .same
    · exact .lose i
    · have hne : ((i : Int) + 1) ≠ -1 := by omega
      rw [if_neg hne, hch, runs_pure, clan_born]
      have hk : (t.forked (i + 1)).kin = { t.kin with pid := i + 1, parentPid := t.kin.pid } := by
        unfold Task.forked Task.kin
        rw [hr]
        rfl
      rw [hk]
      exact .fork i q t.kin (clan_kin hc) hp hlive (by simp [Threads.clan, hl.2 q hch]) hb
  | sysExit status =>
    obtain ⟨-, u, b, hu, hp, -⟩ := hl
    rw [hc] at hu
    cases hu
    exact runs_dropped (sysExit_clan h hf hc hp)
  | sysWait =>
    obtain ⟨-, u, b, hu, hp, -⟩ := hl
    rw [hc] at hu
    cases hu
    exact runs_waiting (sysWait_clan h hf hc hp) fun _ _ hs => hs
  | threadExit =>
    have ht : s.tasks s.mainThread = some t := hl.2 ▸ hc
    obtain ⟨k, hk, hproc⟩ := hf.main
    have hkt : k = t.kin := Option.some.inj (hk.symm.trans (clan_kin ht))
    have hexit := h.threadExit_spec hl.2
    refine runs_dropped (runs_mono hexit (fun _ he => he.elim) fun _ s' h' => ?_)
    obtain ⟨u, hu, -, hres⟩ := h'
    rw [hc] at hu
    cases hu
    rw [hres.same.clan, clan_buried, decide_eq_true rfl, ← hl.2]
    exact .leave t.kin (clan_kin hc) (hkt ▸ hproc) hlive
  | goOn =>
    refine runs_waiting (P := fun r s' => Clan.Step s.clan s.cur (r.map (.waited s.cur)) s'.clan) ?_ fun _ _ hs => hs
    unfold goOn
    rw [runs_bind_ok (runningThread_run hc)]
    have hidle : s.cur ≠ s.idleThread := by
      intro he
      obtain ⟨v, b, hv, -, hout⟩ := h.idleOut
      rw [← he] at hv
      exact hl ⟨v, b, hv, hout⟩
    cases hres : t.resume with
    | out b => exact .same
    | semaDown k old =>
      refine runs_seq (semaDownLoop_clan h hidle) fun _ s' h' => ?_
      rw [runs_pure, h']
      exact .same
    | sysWait => exact sysWait_clan h hf hc (h.waitsOut s.cur t hc hres)

/-! ## Reachable states -/

theorem booted_family {main init idle : Nat} (hi : init ≠ main) (hm : idle ≠ main) (hii : idle ≠ init) :
    Family (booted main init idle).clan [] := by
  have htask := booted_tasks main init idle
  have hinv : ∀ {p k}, (booted main init idle).clan.kin p = some k →
      p = idle ∧ k = ⟨3, -1, false, 0, .live⟩ ∨ p = main ∧ k = ⟨2, -1, false, 0, .live⟩ ∨
        p = init ∧ k = ⟨1, -1, true, 0, .live⟩ := by
    intro p k hk
    obtain ⟨t, ht, rfl⟩ := kin_clan hk
    rw [htask] at ht
    split at ht
    · rename_i hp
      cases ht
      exact .inl ⟨hp, rfl⟩
    · split at ht
      · rename_i hp
        cases ht
        exact .inr (.inl ⟨hp, rfl⟩)
      · split at ht
        · rename_i hp
          cases ht
          exact .inr (.inr ⟨hp, rfl⟩)
        · cases ht
  have hinit : (booted main init idle).clan.kin init = some ⟨1, -1, true, 0, .live⟩ :=
    clan_kin (t := newTask 1 .ready 31 true) (by simp [htask, Ne.symm hii, hi])
  have hmain : (booted main init idle).clan.kin main = some ⟨2, -1, false, 0, .live⟩ :=
    clan_kin (t := newTask 2 .running 31 false) (by simp [htask, Ne.symm hm])
  have hidle : (booted main init idle).clan.kin idle = some ⟨3, -1, false, 0, .live⟩ :=
    clan_kin (t := newTask 3 .ready 10 false) (by simp [htask])
  have hpids : (booted main init idle).clan.pids = (((⟨128, fun _ => 0⟩ : Bitmap).set 0 true).set 1 true).set 2 true := rfl
  refine ⟨?_, fun p => ?_, fun p q t u ht hu _ _ he => ?_, fun p t ht _ => ?_, fun p t ht _ => ?_, fun p t ht hp => ?_,
    ⟨init, _, hinit, rfl, rfl, rfl, by simp⟩, fun p t ht hp h1 => ?_, fun p t ht hp => ?_, fun p t ht => ?_,
    ⟨_, hmain, rfl⟩, fun p t ht hst => ?_⟩
  · change [init, main, idle].Nodup
    simpa using ⟨⟨hi, Ne.symm hii⟩, Ne.symm hm⟩
  · change p ∈ [init, main, idle] ↔ _
    constructor
    · intro hp
      simp only [List.mem_cons, List.not_mem_nil, or_false] at hp
      rcases hp with rfl | rfl | rfl
      · exact ⟨_, hinit, by simp⟩
      · exact ⟨_, hmain, by simp⟩
      · exact ⟨_, hidle, by simp⟩
    · rintro ⟨t, ht, -⟩
      rcases hinv ht with ⟨rfl, -⟩ | ⟨rfl, -⟩ | ⟨rfl, -⟩
      · simp
      · simp
      · simp
  · rcases hinv ht with ⟨rfl, rfl⟩ | ⟨rfl, rfl⟩ | ⟨rfl, rfl⟩ <;>
      rcases hinv hu with ⟨rfl, rfl⟩ | ⟨rfl, rfl⟩ | ⟨rfl, rfl⟩ <;> first | rfl | cases he
  · rw [hpids]
    rcases hinv ht with ⟨-, rfl⟩ | ⟨-, rfl⟩ | ⟨-, rfl⟩
    · exact ⟨2, rfl, by decide⟩
    · exact ⟨1, rfl, by decide⟩
    · exact ⟨0, rfl, by decide⟩
  · rcases hinv ht with ⟨-, rfl⟩ | ⟨-, rfl⟩ | ⟨-, rfl⟩ <;> exact .inl rfl
  · rcases hinv ht with ⟨-, rfl⟩ | ⟨-, rfl⟩ | ⟨-, rfl⟩ <;> simp
  · rcases hinv ht with ⟨-, rfl⟩ | ⟨-, rfl⟩ | ⟨-, rfl⟩
    · cases hp
    · cases hp
    · exact absurd rfl h1
  · rcases hinv ht with ⟨-, rfl⟩ | ⟨-, rfl⟩ | ⟨-, rfl⟩ <;> rfl
  · rcases hinv ht with ⟨-, rfl⟩ | ⟨-, rfl⟩ | ⟨-, rfl⟩ <;> decide
  · rcases hinv ht with ⟨-, rfl⟩ | ⟨-, rfl⟩ | ⟨-, rfl⟩ <;> cases hst

/-- What holds along a run. -/
theorem reachable_invariant {C : Call → Threads → Prop} {I : Threads → List Event → Prop} (h : ReachableBy C s l)
    (hC : ∀ c s, C c s → c.Legal s) (hboot : ∀ main init idle, init ≠ main → idle ≠ main → idle ≠ init →
      I (booted main init idle) [])
    (hstep : ∀ c s l ev s', Steady s → Family s.clan l → I s l → C c s → c.cmd s = .ok (ev, s') →
      Clan.Step s.clan s.cur ev s'.clan → I s' (ev.toList ++ l)) : Steady s ∧ Family s.clan l ∧ I s l := by
  obtain ⟨main, init, idle, s₀, calls, hi, hm, hii, hinit, hsteps⟩ := h
  rw [threadInit_run hi hm hii] at hinit
  cases hinit
  refine hsteps.invariant_logged (I := fun s l => Steady s ∧ Family s.clan l ∧ I s l) (fun c s l ev s' hs hl he => ?_)
    ⟨booted_steady hi hm hii, booted_family hi hm hii, hboot main init idle hi hm hii⟩
  obtain ⟨hsteady, hf, hI⟩ := hs
  have hclan := runs_of_ok (call_clan hsteady hf (hC c s hl)) he
  exact ⟨runs_of_ok (hsteady.call (hC c s hl)) he, hf.step hclan, hstep c s l ev s' hsteady hf hI hl he hclan⟩

theorem reachable_family (h : Reachable s l) : Steady s ∧ Family s.clan l := by
  obtain ⟨hs, hf, -⟩ := reachable_invariant (I := fun _ _ => True) h (fun _ _ hl => hl) (fun _ _ _ _ _ _ => trivial)
    fun _ _ _ _ _ _ _ _ _ _ _ => trivial
  exact ⟨hs, hf⟩

/-- What `sys_wait` returns to `p` in a family. -/
def Waited.Lawful (s s' : Threads) (l : List Event) (p : Nat) : Waited → Prop
  | .child q pid _ => ∃ t u v, s.tasks p = some t ∧ s.tasks q = some u ∧ u.parentPid = t.pid ∧ u.pid = pid ∧
      exitOf q l = some v ∧ s'.tasks q = none ∧ q ∉ s'.threadAllList ∧ q ∉ s'.threadReadyList ∧ ∀ x, q ∉ s'.queue x
  | .noChild => ∃ t, s.tasks p = some t ∧ ∀ q u, q ∈ s.threadAllList → s.tasks q = some u → u.parentPid ≠ t.pid

theorem waited_lawful {r : Waited} (hs : Steady s') (hf : Family s.clan l)
    (hstep : Clan.Step s.clan q (some (.waited p r)) s'.clan) : r.Lawful s s' l p := by
  generalize hclan : s'.clan = c at hstep
  cases hstep with
  | reap q k k' hk hk' hpar hst =>
    obtain ⟨t, ht, rfl⟩ := kin_clan hk
    obtain ⟨u, hu, rfl⟩ := kin_clan hk'
    obtain ⟨v, hv, -⟩ := hf.exits q u.kin hk' hst
    have hnone : s'.tasks q = none := by
      have hkin : s'.clan.kin q = none := by
        rw [hclan]
        exact update_self ..
      simpa [Threads.clan] using hkin
    have hall : q ∉ s'.threadAllList := by
      have he : s'.threadAllList = s.clan.all.erase q := congrArg Clan.all hclan
      rw [he]
      exact hf.nodup.not_mem_erase
    refine ⟨t, u, v, ht, hu, hpar, rfl, hv, hnone, hall, hs.queues.fresh hnone, fun x hx => ?_⟩
    obtain ⟨-, w, hw, -⟩ := hs.queues.waits x q hx
    rw [hnone] at hw
    cases hw
  | noChild k hk hno =>
    obtain ⟨t, ht, rfl⟩ := kin_clan hk
    exact ⟨t, ht, fun q u hq hu => hno q u.kin hq (clan_kin hu)⟩

/-- Pids differ, every process but init has a parent on the list, so that no call
goes through NULL, and `sys_wait` returns each child that has exited once, or
none when there is none. -/
theorem family (h : Reachable s l) :
    (∀ p q t u, p ∈ s.threadAllList → q ∈ s.threadAllList → s.tasks p = some t → s.tasks q = some u →
      t.pid = u.pid → p = q) ∧
    (∀ p t, p ∈ s.threadAllList → s.tasks p = some t → t.process = true → t.pid ≠ 1 →
      ∃ q u, q ∈ s.threadAllList ∧ s.tasks q = some u ∧ u.process = true ∧ u.pid = t.parentPid) ∧
    ∀ c : Call, c.Legal s → c.cmd s ≠ .error .fault ∧
      ∀ p r s', c.cmd s = .ok (some (.waited p r), s') → r.Lawful s s' l p := by
  obtain ⟨hs, hf⟩ := reachable_family h
  have hlive : ∀ {p t}, p ∈ s.threadAllList → s.tasks p = some t → t.kin.stage ≠ .died := by
    intro p t hp ht
    obtain ⟨k, hk, hkl⟩ := (hf.listed p).1 hp
    rw [clan_kin ht] at hk
    cases hk
    exact hkl
  refine ⟨fun p q t u hp hq ht hu he => ?_, fun p t hp ht hproc h1 => ?_, fun c hl => ⟨fun he => ?_, fun p r s' he => ?_⟩⟩
  · exact hf.distinct p q t.kin u.kin (clan_kin ht) (clan_kin hu) (hlive hp ht) (hlive hq hu) he
  · obtain ⟨q, k, hk, hkp, hkpid, -⟩ := hf.parent p t.kin (clan_kin ht) hproc h1
    obtain ⟨u, hu, rfl⟩ := kin_clan hk
    exact ⟨q, u, (hf.listed q).2 ⟨u.kin, hk, hf.processes q u.kin hk hkp⟩, hu, hkp, hkpid⟩
  · have hnot : NotFault .fault := runs_of_error (call_clan hs hf hl) he
    exact hnot rfl
  · have hstep := runs_of_ok (call_clan hs hf hl) he
    have hs' := runs_of_ok (hs.call hl) he
    exact waited_lawful hs' hf hstep

/-- init forks, waits and is woken by the exit of its child. -/
def waitedRun : List Call :=
  [.threadYield, .setIntr false, .sysFork (some 3) true, .sysWait, .idle, .threadExit, .setIntr false, .sysExit 7]

theorem waitedRun_ends : ∃ s l, Reachable s l ∧ (decide (Call.goOn.Legal s) &&
    decide (Call.goOn.event s = some (.waited 1 (.child 3 4 4)) ∧ exitOf 3 l = some 7)) = true :=
  reachable_legal waitedRun (by decide)

theorem family_waited : ∃ s l s', Reachable s l ∧ Waited.Lawful s s' l 1 (.child 3 4 4) := by
  obtain ⟨s, l, h, hP⟩ := waitedRun_ends
  simp only [Bool.and_eq_true, decide_eq_true_eq] at hP
  obtain ⟨s', he⟩ := cmd_of_event hP.2.1
  exact ⟨s, l, s', h, ((family h).2.2 .goOn hP.1).2 1 _ s' he⟩

/-- `sys_wait` reports the status of the child's task, TASK_HANGING, so it is
right about those children that exit with this value. -/
theorem wait_status {pid status : Int} (h : Reachable s l) (hl : c.Legal s)
    (he : c.cmd s = .ok (some (.waited p (.child q pid status)), s')) :
    ∃ v, exitOf q l = some v ∧ (status = v.bmod 256 ↔ v.bmod 256 = 4) := by
  obtain ⟨hs, hf⟩ := reachable_family h
  have hstep := runs_of_ok (call_clan hs hf hl) he
  generalize s'.clan = c' at hstep
  cases hstep with
  | reap q k k' hk hk' hpar hst =>
    obtain ⟨v, hv, -⟩ := hf.exits q k' hk' hst
    exact ⟨v, hv, eq_comm⟩

theorem wait_status_seven : ∃ s s' l, Reachable s l ∧ Call.goOn.cmd s = .ok (some (.waited 1 (.child 3 4 4)), s') ∧
    ∃ v, exitOf 3 l = some v ∧ ((4 : Int) = v.bmod 256 ↔ v.bmod 256 = 4) := by
  obtain ⟨s, l, h, hP⟩ := waitedRun_ends
  simp only [Bool.and_eq_true, decide_eq_true_eq] at hP
  obtain ⟨s', he⟩ := cmd_of_event hP.2.1
  exact ⟨s, s', l, h, he, wait_status h hP.1 he⟩

/-- A child exits with 7 and its parent hears 4. -/
theorem wait_status_wrong : ¬ ∀ (s s' : Threads) (l : List Event) (c : Call) (p q : Nat) (pid status v : Int),
    Reachable s l → c.Legal s → c.cmd s = .ok (some (.waited p (.child q pid status)), s') → exitOf q l = some v →
      status = v.bmod 256 := by
  intro hclaim
  obtain ⟨s, l, h, hP⟩ := waitedRun_ends
  simp only [Bool.and_eq_true, decide_eq_true_eq] at hP
  obtain ⟨s', he⟩ := cmd_of_event hP.2.1
  have h47 := hclaim s s' l .goOn 1 3 4 4 7 h hP.1 he hP.2.2
  exact absurd h47 (by decide)

/-! ## Waking a parent -/

/-- A process that exits leaves no child that hangs to an init that waits, unless
init is its own parent. -/
def Call.Noticed : Call → Threads → Prop
  | .sysExit _, s => ∀ t i ti q u, s.tasks s.cur = some t → s.tasks i = some ti → ti.pid = 1 → ti.status = .waiting →
      s.tasks q = some u → u.status = .hanging → u.parentPid = t.pid → t.parentPid = 1
  | _, _ => True

theorem stage_waiting (t : Task) : t.kin.stage = .waiting ↔ t.status = .waiting := by
  unfold Task.kin stage
  cases t.status <;> simp

theorem stage_hanging (t : Task) : t.kin.stage = .hanging ↔ t.status = .hanging := by
  unfold Task.kin stage
  cases t.status <;> simp

theorem waiting_event {m : M (Option Waited)} {ev : Option Event} (h : waiting m s = .ok (ev, s')) :
    ev ≠ some (.exited p v) := by
  unfold waiting at h
  obtain ⟨_, _, -, h⟩ := bind_eq_ok.1 h
  obtain ⟨r, _, -, h⟩ := bind_eq_ok.1 h
  cases h
  cases r with
  | none => simp
  | some r => simp

/-- Only `sys_exit` leaves an exit on the log. -/
theorem exited_call (h : c.cmd s = .ok (some (.exited p v), s')) : c = .sysExit v := by
  cases c with
  | sysExit status =>
    obtain ⟨_, _, -, h⟩ := bind_eq_ok.1 h
    obtain ⟨_, _, -, h⟩ := bind_eq_ok.1 h
    cases h
    rfl
  | sysFork child ok =>
    obtain ⟨pid, _, -, h⟩ := bind_eq_ok.1 h
    rw [pure_run] at h
    split at h
    · cases h
    · cases child with
      | none => cases h
      | some q => cases h
  | sysWait => exact absurd rfl (waiting_event h)
  | goOn => exact absurd rfl (waiting_event h)
  | threadExit =>
    obtain ⟨_, _, -, h⟩ := bind_eq_ok.1 h
    obtain ⟨_, _, -, h⟩ := bind_eq_ok.1 h
    cases h
  | tick | setIntr | threadStart | idle | semaInit | semaDown | semaUp | ioqWait | wakeup | threadYield =>
    obtain ⟨_, _, -, h⟩ := bind_eq_ok.1 h
    cases h

theorem booted_awake (main init idle : Nat) : (booted main init idle).clan.Awake := by
  intro p k q u hk hw
  obtain ⟨t, ht, rfl⟩ := kin_clan hk
  rw [stage_waiting] at hw
  rw [booted_tasks] at ht
  split at ht
  · cases ht
    cases hw
  · split at ht
    · cases ht
      cases hw
    · split at ht
      · cases ht
        cases hw
      · cases ht

/-- In a run whose exits are all noticed, nobody sleeps in `sys_wait` who has a child
that hangs. -/
theorem waiters_woken (h : ReachableBy (fun c s => c.Legal s ∧ c.Noticed s) s l) :
    ∀ p t q u, s.tasks p = some t → t.status = .waiting → s.tasks q = some u → u.status = .hanging →
      u.parentPid ≠ t.pid := by
  have hawake := reachable_invariant (I := fun s _ => s.clan.Awake) h (fun _ _ hl => hl.1)
    (fun main init idle _ _ _ => booted_awake main init idle) fun c s l ev s' _ hf ha hl he hstep => by
      refine ha.step hf hstep fun v hv => ?_
      rw [hv] at he
      rw [exited_call he] at hl
      intro k i ki q ku hk hki h1 hw hku hh hpar
      obtain ⟨t, ht, rfl⟩ := kin_clan hk
      obtain ⟨ti, hti, rfl⟩ := kin_clan hki
      obtain ⟨u, hu, rfl⟩ := kin_clan hku
      exact hl.2 t i ti q u ht hti h1 ((stage_waiting ti).1 hw) hu ((stage_hanging u).1 hh) hpar
  intro p t q u ht hw hu hh
  exact hawake.2.2 p t.kin q u.kin (clan_kin ht) ((stage_waiting t).2 hw) (clan_kin hu) ((stage_hanging u).2 hh)

/-- A legal call; a process that exits is a child of init. -/
def noticed (c : Call) (s : Threads) : Bool := decide (c.Legal s) && match c with
  | .sysExit _ => (s.tasks s.cur).all fun t => decide (t.parentPid = 1)
  | _ => true

/-- The exit of a child of init is noticed. -/
theorem waiters_woken_child : ∃ s l, ReachableBy (fun c s => c.Legal s ∧ c.Noticed s) s l ∧
    (∃ u, s.tasks 3 = some u ∧ u.status = .hanging ∧ u.parentPid = 1) ∧
    ∀ t, s.tasks 1 = some t → t.pid = 1 → t.status ≠ .waiting := by
  have hrun : ∃ s l, ReachableBy (fun c s => c.Legal s ∧ c.Noticed s) s l ∧
      ((s.tasks 3).any fun u => decide (u.status = .hanging ∧ u.parentPid = 1)) = true := by
    refine reachable_play waitedRun (fun c s (hc : noticed c s = true) => ?_) (by decide)
    unfold noticed at hc
    simp only [Bool.and_eq_true, decide_eq_true_eq] at hc
    refine ⟨hc.1, ?_⟩
    cases c with
    | sysExit v =>
      intro t i ti q u ht _ _ _ _ _ _
      have hpar := hc.2
      rw [ht] at hpar
      simpa using hpar
    | _ => trivial
  obtain ⟨s, l, h, hP⟩ := hrun
  obtain ⟨u, hu, hst⟩ := (Option.any_eq_true _ _).1 hP
  simp only [decide_eq_true_eq] at hst
  refine ⟨s, l, h, ⟨u, hu, hst⟩, fun t ht hpid hw => ?_⟩
  exact waiters_woken h 1 t 3 u ht hw hu hst.1 (by rw [hst.2, hpid])

/-- init waits; its grandchild 4 exits and leaves to it the child 5, which hangs
already. Nobody wakes init. -/
theorem waiter_missed : ¬ ∀ (s : Threads) (l : List Event), Reachable s l → ∀ p t q u, s.tasks p = some t →
    t.status = .waiting → s.tasks q = some u → u.status = .hanging → u.parentPid ≠ t.pid := by
  intro hclaim
  have hrun : ∃ s l, Reachable s l ∧ ((s.tasks 1).any (fun t => decide (t.status = .waiting ∧ t.pid = 1)) &&
      (s.tasks 5).any fun u => decide (u.status = .hanging ∧ u.parentPid = 1)) = true :=
    reachable_legal [.threadYield, .setIntr false, .sysFork (some 3) true, .sysWait, .idle, .threadExit,
      .setIntr false, .sysFork (some 4) true, .threadYield, .setIntr false, .sysFork (some 5) true, .threadYield,
      .threadYield, .setIntr false, .sysExit 0, .sysExit 0] (by decide)
  obtain ⟨s, l, h, hP⟩ := hrun
  rw [Bool.and_eq_true] at hP
  obtain ⟨t, ht, hst⟩ := (Option.any_eq_true _ _).1 hP.1
  obtain ⟨u, hu, hsu⟩ := (Option.any_eq_true _ _).1 hP.2
  simp only [decide_eq_true_eq] at hst hsu
  exact hclaim s l h 1 t 5 u ht hst.1 hu hsu.1 (by rw [hsu.2, hst.2])

end

end Enix.Thread
