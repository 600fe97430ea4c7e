import Enix.Thread.Block

/-!
# Birth, exit and wait

What the functions that make and end tasks do, each as a state of its own from
which at most the processor goes to another task.
-/
set_option autoImplicit false

namespace Enix.Thread
open Enix.Core Enix.Kernel Function
open Enix.Memory (TaskStatus)

section
variable {s s' : Threads} {t u tp : Task} {i p q c prio parent : Nat} {pid v : Int} {a : Site} {b old : Bool}

/-! ## Birth -/

theorem allocatePid_spec : runs (· = .assertion .bitmapScan) allocatePid (fun pid s' => ∃ i : Nat,
    i < s.pidBitmap.size ∧ s.pidBitmap.bit i = false ∧ pid = i + 1 ∧
      s' = { s with pidBitmap := s.pidBitmap.set i true }) s := by
  unfold allocatePid
  rw [runs_read_bind]
  cases hi : s.pidBitmap.scan 1 with
  | none => rfl
  | some j =>
    obtain ⟨i, rfl, hlt, hb⟩ := Bitmap.scan_one_lt hi
    rw [get_some, runs_pure_bind, runs_change_bind, runs_pure]
    exact ⟨i, hlt, hb, rfl, rfl⟩

/-- A new task `p` with pid `i + 1`. -/
def Threads.born (s : Threads) (i p : Nat) (u : Task) : Threads :=
  { s with
    tasks := update s.tasks p (some u), pidBitmap := s.pidBitmap.set i true,
    threadReadyList := s.threadReadyList ++ [p], threadAllList := s.threadAllList ++ [p] }

theorem enlist_spec (hr : p ∉ s.threadReadyList) : runs (· = .assertion a) (enlist p a) (fun _ s' =>
    p ∉ s.threadAllList ∧ s' = { s with
      threadReadyList := s.threadReadyList ++ [p], threadAllList := s.threadAllList ++ [p] }) s := by
  unfold enlist
  rw [runs_read_bind, runs_bind_ok (guard_run hr _ s), runs_change_bind, runs_read_bind]
  refine runs_guard_bind (fun _ => rfl) fun hno => ?_
  exact ⟨hno, rfl⟩

/-- Why no task is made: no pid is left, or the page is on the list already. -/
def Barren (a : Site) (e : Stop) : Prop := e = .assertion .bitmapScan ∨ e = .assertion a

/-- `thread_start` and `process_execute`. -/
theorem start_spec (mk : Int → Task) (hr : p ∉ s.threadReadyList) :
    runs (Barren a) (do
      setTask p (mk (← allocatePid))
      enlist p a) (fun _ s' => ∃ i : Nat, i < s.pidBitmap.size ∧ s.pidBitmap.bit i = false ∧ p ∉ s.threadAllList ∧
        s' = s.born i p (mk (i + 1))) s := by
  refine runs_seq (runs_mono allocatePid_spec (fun _ => .inl) fun _ _ hq => hq) fun pid s₁ h₁ => ?_
  obtain ⟨i, hi, hb, rfl, rfl⟩ := h₁
  rw [runs_bind_ok (setTask_run _ _ _)]
  refine runs_mono (enlist_spec (by exact hr)) (fun _ => .inr) fun _ s' h' => ?_
  exact ⟨i, hi, hb, h'.1, h'.2⟩

/-- What `fork` makes of the copy of its caller. -/
def Task.forked (t : Task) (pid : Int) : Task :=
  { t with pid := pid, elapsedTicks := 0, status := .ready, ticks := t.priority, parentPid := t.pid, resume := .out true }

/-- `fork` gives up, with a pid lost at most, or there is a child. -/
theorem sysFork_spec {child : Option Nat} {ok : Bool} (hc : s.tasks s.cur = some t)
    (hr : ∀ c, child = some c → c ∉ s.threadReadyList) :
    runs (Barren .sysFork) (sysFork child ok) (fun pid s' =>
      pid = -1 ∧ (s' = s ∨ ∃ i : Nat, s.pidBitmap.bit i = false ∧ s' = { s with pidBitmap := s.pidBitmap.set i true }) ∨
      t.process = true ∧ s.intr = false ∧ ∃ i c : Nat, child = some c ∧ pid = i + 1 ∧ i < s.pidBitmap.size ∧
        s.pidBitmap.bit i = false ∧ c ∉ s.threadAllList ∧ s' = s.born i c (t.forked (i + 1))) s := by
  unfold sysFork
  cases child with
  | none =>
    rw [runs_pure]
    exact .inl ⟨rfl, .inl rfl⟩
  | some c =>
    simp only
    rw [runs_bind_ok (runningThread_run hc), runs_read_bind]
    refine runs_guard_bind (fun _ => .inr rfl) fun hg => ?_
    refine runs_seq (runs_mono allocatePid_spec (fun _ => .inl) fun _ _ hq => hq) fun pid s₁ h₁ => ?_
    obtain ⟨i, hi, hb, rfl, rfl⟩ := h₁
    refine runs_ite (fun _ => ?_) fun _ => ?_
    · rw [runs_bind_ok (setTask_run _ _ _)]
      refine runs_seq (runs_mono (enlist_spec (hr c rfl)) (fun _ => .inr) fun _ _ hq => hq) fun _ s₂ h₂ => ?_
      rw [runs_pure, h₂.2]
      exact .inr ⟨hg.2, hg.1, i, c, rfl, rfl, hi, hb, h₂.1, rfl⟩
    · rw [runs_pure]
      exact .inl ⟨rfl, .inr ⟨i, hb, rfl⟩⟩

/-- A new task goes to the end of the ready list. -/
theorem Scheduled.born (h : Scheduled s) (hp : s.tasks p = none) (hu : u.status = .ready) : Scheduled (s.born i p u) := by
  have hno : p ∉ s.threadReadyList := by
    intro hm
    obtain ⟨t, ht, -⟩ := (h.queues.ready p).1 hm
    rw [hp] at ht
    cases ht
  have hq : ∀ x, p ∉ s.queue x := by
    intro x hm
    obtain ⟨-, t, ht, -⟩ := h.queues.waits x p hm
    rw [hp] at ht
    cases ht
  obtain ⟨t, hc, hr⟩ := h.inCharge
  have hne : s.cur ≠ p := by
    rintro he
    rw [he, hp] at hc
    cases hc
  exact ⟨h.queues.toReady hu hno hq rfl (List.perm_append_singleton _ _) rfl rfl rfl,
    ⟨t, by exact (update_of_ne hne _ _).trans hc, hr⟩⟩

/-! ## The end of a task -/

theorem comeBack_run (hc : s.tasks s.cur = some t) :
    comeBack old s = .ok ((), { s.setTask s.cur { t with resume := .out old } with intr := old }) := by
  unfold comeBack
  rw [bind_ok (runningThread_run hc), bind_ok (read_run _ s), bind_ok (setTask_run _ _ _)]
  rfl

/-- Task `q` is on no list any more, and its page and its pid are free; the PCB of
the main thread stays where it is. -/
def Threads.buried (s : Threads) (q : Nat) (t : Task) : Threads :=
  { s with
    intr := false, threadReadyList := s.threadReadyList.erase q, threadAllList := s.threadAllList.erase q,
    tasks := update s.tasks q (if q = s.mainThread then some { t with status := .died } else none),
    pidBitmap := s.pidBitmap.set (t.pid - 1).toNat false }

theorem threadExit_bury (ht : s.tasks q = some t) : threadExit q b s = (Cmd.when (b = true) schedule) (s.buried q t) := by
  unfold threadExit
  rw [bind_ok (intrDisable_run s), bind_ok (task_run (s := { s with intr := false }) ht), bind_ok (change_run _ _),
    bind_ok (change_run _ _), bind_ok (read_run _ _)]
  unfold Threads.buried
  by_cases hq : q = s.mainThread
  · rw [if_pos (by exact hq), if_pos hq]
    rfl
  · rw [if_neg (by exact hq), if_neg hq]
    rfl

/-- A task that is neither ready nor blocked nor idle goes. -/
theorem Queues.buried (h : Queues s) (ht : s.tasks q = some t) (hr : t.status ≠ .ready) (hb : t.status ≠ .blocked)
    (hi : q ≠ s.idleThread) : Queues (s.buried q t) := by
  have hno : q ∉ s.threadReadyList := h.not_ready ht hr
  have hq : ∀ x, q ∉ s.queue x := h.not_waits ht hb
  have hl : (s.buried q t).threadReadyList = s.threadReadyList := List.erase_of_not_mem hno
  have hx : (s.buried q t).queue = s.queue := by
    funext x
    cases x with
    | sema k => rfl
    | ioq j => rfl
  have hdead : ∀ w, (s.buried q t).tasks q = some w → w.status = .died := by
    intro w hw
    have he : update s.tasks q (if q = s.mainThread then some { t with status := .died } else none) q = some w := hw
    rw [update_self] at he
    split at he
    · cases he
      rfl
    · cases he
  have hother : ∀ p, p ≠ q → (s.buried q t).tasks p = s.tasks p := fun p hp => update_of_ne hp _ _
  refine ⟨fun p w hw hrun => ?_, ?_, fun p => ?_, ?_, ?_, fun x p hp => ?_, ?_⟩
  · by_cases hp : p = q
    · rw [hp] at hw
      rw [hdead w hw] at hrun
      cases hrun
    · rw [hother p hp] at hw
      exact h.running p w hw hrun
  · rw [hl]
    exact h.nodup
  · rw [hl]
    by_cases hp : p = q
    · rw [hp]
      refine ⟨fun hm => absurd hm hno, ?_⟩
      rintro ⟨w, hw, hwr⟩
      rw [hdead w hw] at hwr
      cases hwr
    · rw [hother p hp]
      exact h.ready p
  · have he : (s.buried q t).tasks (s.buried q t).idleThread = s.tasks s.idleThread := hother _ (Ne.symm hi)
    rw [he]
    exact h.idle
  · rw [hx]
    exact h.queueNodup
  · rw [hx] at hp
    rw [hother p fun he => hq x (he ▸ hp)]
    exact h.waits x p hp
  · rw [hx]
    exact h.once

/-! ## Exit -/

/-- The children of `pid` belong to init. -/
def Threads.adopted (s : Threads) (pid : Int) : Threads := { s with
  tasks := fun q => (s.tasks q).map fun t =>
    if q ∈ s.threadAllList ∧ t.parentPid = pid then { t with parentPid := 1 } else t }

/-- The task that runs, with its exit status, has given its children to init. -/
def Threads.exiting (s : Threads) (t : Task) (v : Int) : Threads :=
  (s.setTask s.cur { t with exitStatus := v.bmod 256 }).adopted t.pid

/-- The parent wakes up if it waits. -/
def Threads.informed (s : Threads) (parent : Nat) (tp : Task) : Threads :=
  if tp.status = .waiting then s.woken parent tp else s

theorem informed_frame (s : Threads) (parent : Nat) (tp : Task) : (s.informed parent tp).cur = s.cur ∧
    (s.informed parent tp).idleThread = s.idleThread ∧ (s.informed parent tp).intr = s.intr ∧
    (s.informed parent tp).threadAllList = s.threadAllList := by
  unfold Threads.informed
  split
  · exact ⟨rfl, rfl, rfl, rfl⟩
  · exact ⟨rfl, rfl, rfl, rfl⟩

theorem Scheduled.adopted (h : Scheduled s) (pid : Int) : Scheduled (s.adopted pid) := by
  refine h.of_status (fun p => ?_) rfl rfl rfl ?_
  · unfold Threads.adopted
    simp only [Option.map_map]
    cases s.tasks p with
    | none => rfl
    | some t =>
      simp only [Option.map_some, comp_apply]
      split
      · rfl
      · rfl
  · funext x
    cases x with
    | sema k => rfl
    | ioq j => rfl

theorem pid2thread_task (h : s.pid2thread pid = some q) :
    q ∈ s.threadAllList ∧ ∃ t, s.tasks q = some t ∧ t.pid = pid := by
  have hm := List.mem_of_find?_eq_some h
  have hp := List.find?_some h
  simp only [decide_eq_true_eq, Option.map_eq_some_iff] at hp
  exact ⟨hm, hp⟩

theorem Scheduled.informed (h : Scheduled s) (htp : s.tasks parent = some tp) :
    (Cmd.when (tp.status = .waiting) (threadUnblock parent)) s = .ok ((), s.informed parent tp) ∧
      Scheduled (s.informed parent tp) ∧ (s.informed parent tp).tasks s.cur = s.tasks s.cur := by
  unfold Cmd.when Threads.informed
  by_cases hw : tp.status = .waiting
  · rw [if_pos hw, if_pos hw]
    obtain ⟨t, hc, hr⟩ := h.inCharge
    obtain ⟨hrun, hq⟩ := h.queues.unblock htp (.inr hw) (h.queues.not_waits htp (by simp [hw]))
    have hne : s.cur ≠ parent := by
      intro he
      rw [← he, hc] at htp
      cases htp
      rw [hr] at hw
      cases hw
    have hcur : (s.woken parent tp).tasks s.cur = s.tasks s.cur := update_of_ne hne _ _
    exact ⟨hrun, ⟨hq, ⟨t, hcur.trans hc, hr⟩⟩, hcur⟩
  · rw [if_neg hw, if_neg hw]
    exact ⟨rfl, h, rfl⟩

/-- `sys_exit` ends with the caller hanging and its parent awake; it stops for a
task without a parent, or whose parent has no PCB on the list. -/
theorem sysExit_spec (h : Scheduled s) (hc : s.tasks s.cur = some t) (hidle : s.cur ≠ s.idleThread) :
    runs (fun e => e = .assertion .sysExit ∧ t.parentPid = -1 ∨
        e = .fault ∧ t.parentPid ≠ -1 ∧
          ∃ u, (s.exiting t v).tasks s.cur = some u ∧ (s.exiting t v).pid2thread u.parentPid = none)
      (sysExit v) (fun _ s' => t.parentPid ≠ -1 ∧ ∃ u parent tp, (s.exiting t v).tasks s.cur = some u ∧
        u.status = .running ∧
        (s.exiting t v).pid2thread u.parentPid = some parent ∧ (s.exiting t v).tasks parent = some tp ∧ Scheduled s' ∧
        Rescheduled (((s.exiting t v).informed parent tp).setTask s.cur
          { u with status := .hanging, resume := .out s.intr }) s') s := by
  have hrun := h.running hc
  unfold sysExit
  rw [runs_read_bind, runs_bind_ok (runningThread_run hc), runs_bind_ok (setTask_run _ _ _)]
  refine runs_guard_bind (fun hg => .inl ⟨rfl, by simpa using hg⟩) fun hg => ?_
  have hadopt : initAdoptAchild t.pid (s.setTask s.cur { t with exitStatus := v.bmod 256 }) = .ok ((), s.exiting t v) := rfl
  rw [runs_bind_ok hadopt]
  have h₁ : Scheduled (s.exiting t v) :=
    (h.setCur (u := { t with exitStatus := v.bmod 256 }) hrun).adopted t.pid
  obtain ⟨u, hu, hur⟩ := h₁.inCharge
  rw [runs_bind_ok (runningThread_run hu), runs_read_bind]
  cases hp : (s.exiting t v).pid2thread u.parentPid with
  | none => exact .inr ⟨rfl, hg, u, hu, hp⟩
  | some parent =>
    obtain ⟨-, tp, htp, -⟩ := pid2thread_task hp
    obtain ⟨hinf, h₂, hcur⟩ := h₁.informed htp
    obtain ⟨hcur₂, hidle₂, hintr₂, -⟩ := informed_frame (s.exiting t v) parent tp
    have hu₂ : ((s.exiting t v).informed parent tp).tasks ((s.exiting t v).informed parent tp).cur = some u := by
      rw [hcur₂]
      exact hcur.trans hu
    rw [get_some, runs_pure_bind, runs_bind_ok (task_run htp), runs_bind_ok hinf]
    have hblock := threadBlock_spec .hanging .out hu₂ (.inr (.inr rfl))
      (h₂.stops hu₂ hur (by simp) fun he => absurd ((hcur₂.symm.trans he).trans hidle₂) hidle)
    rw [hcur₂, hintr₂] at hblock
    exact runs_mono hblock (fun _ he => he.elim) fun _ s' h' => ⟨hg, u, parent, tp, hu, hur, hp, htp, h'.1, h'.2⟩

/-! ## Wait -/

theorem findHangingChild_some (h : s.findHangingChild pid = some q) :
    q ∈ s.threadAllList ∧ ∃ t, s.tasks q = some t ∧ t.parentPid = pid ∧ t.status = .hanging := by
  have hm := List.mem_of_find?_eq_some h
  have hp := List.find?_some h
  simp only [Option.any_eq_true, Bool.and_eq_true, decide_eq_true_eq] at hp
  exact ⟨hm, hp⟩

theorem findHangingChild_none (h : s.findHangingChild pid = none) (hq : q ∈ s.threadAllList) (ht : s.tasks q = some t)
    (hp : t.parentPid = pid) : t.status ≠ .hanging := by
  have hno := List.find?_eq_none.1 h q hq
  intro hst
  rw [ht] at hno
  simp [hp, hst] at hno

theorem findChild_none (h : s.findChild pid = none) (hq : q ∈ s.threadAllList) (ht : s.tasks q = some t) :
    t.parentPid ≠ pid := by
  have hno := List.find?_eq_none.1 h q hq
  intro hp
  rw [ht] at hno
  simp [hp] at hno

/-- The caller has its result. -/
def Threads.back (s : Threads) (t : Task) : Threads :=
  { s.setTask s.cur { t with resume := .out false } with intr := false }

/-- One round of `sys_wait`: a child that hangs is buried; without any child there
is nothing to wait for; otherwise the caller sleeps. -/
theorem sysWait_spec (h : Scheduled s) (hc : s.tasks s.cur = some t) (hidle : s.cur ≠ s.idleThread) :
    runs (fun _ => False) sysWait (fun r s' => match r with
      | some (.child q pid status) => ∃ u, s.findHangingChild t.pid = some q ∧ s.tasks q = some u ∧ u.status = .hanging ∧
          pid = u.pid ∧ status = 4 ∧ s' = (s.buried q u).back t
      | some .noChild => s.findChild t.pid = none ∧ s' = s.back t
      | none => s.findHangingChild t.pid = none ∧ s.findChild t.pid ≠ none ∧ Scheduled s' ∧
          Rescheduled (s.setTask s.cur { t with status := .waiting, resume := .sysWait }) s') s := by
  unfold sysWait
  rw [runs_bind_ok (runningThread_run hc), runs_read_bind]
  cases hh : s.findHangingChild t.pid with
  | some q =>
    obtain ⟨-, u, hu, -, hst⟩ := findHangingChild_some hh
    simp only
    have hexit : threadExit q false s = .ok ((), s.buried q u) := threadExit_bury hu
    have hne : s.cur ≠ q := by
      intro he
      rw [← he, hc] at hu
      cases hu
      rw [h.running hc] at hst
      cases hst
    have hc₁ : (s.buried q u).tasks (s.buried q u).cur = some t := (update_of_ne hne _ _).trans hc
    rw [runs_bind_ok (task_run hu), runs_bind_ok hexit, runs_bind_ok (comeBack_run hc₁), runs_pure]
    exact ⟨u, rfl, hu, hst, rfl, by rw [hst]; rfl, rfl⟩
  | none =>
    simp only
    rw [runs_read_bind]
    refine runs_ite (fun hn => ?_) fun hn => ?_
    · rw [runs_bind_ok (comeBack_run hc), runs_pure]
      exact ⟨hn, rfl⟩
    · refine runs_seq (threadBlock_spec .waiting (fun _ => .sysWait) hc (.inr (.inl rfl))
        (h.stops hc (h.running hc) (by simp) fun he => absurd he hidle)) fun _ s' h' => ?_
      rw [runs_pure]
      exact ⟨trivial, hn, h'.1, h'.2⟩

end

end Enix.Thread
