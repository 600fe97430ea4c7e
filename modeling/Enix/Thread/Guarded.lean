import Enix.Core.Section
import Enix.Thread.Lock

/-!
# Functions that take a lock

Threads run functions that are written `lock_acquire(..); ..; lock_release(..);`, nested or not. Each
has before it what is left of the function that it is in; what stands between the lock's
operations is a `body` that works on a state of its own.

* `Ok.turn`: every step keeps the lock's invariant, and that the acquires and releases to
  come are those of the depth.
* `Ok.inside_unique`: one thread at a time is in a body.
* `served`: bodies that work on a resource in steps leave behind what they make of it one
  behind the other, and each thread has its own carried out in the order in which it asked for
  them, once each.
-/
set_option autoImplicit false

namespace Enix.Thread
open Enix.Core Enix.Kernel Function

/-- A statement of a function that takes the lock. -/
inductive Op (κ : Type) where
  | acquire
  | release
  | body (x : κ)

/-- With `d` acquires already made: bodies stand under the lock, every acquire has its release,
and there are less than 2^32 at a time. -/
def Bracketed {κ : Type} : Nat → List (Op κ) → Prop
  | d, [] => d = 0
  | d, .acquire :: ops => d + 1 < 4294967296 ∧ Bracketed (d + 1) ops
  | d, .release :: ops => 0 < d ∧ Bracketed (d - 1) ops
  | d, .body _ :: ops => 0 < d ∧ Bracketed d ops

def decBracketed {κ : Type} : (d : Nat) → (ops : List (Op κ)) → Decidable (Bracketed d ops)
  | d, [] => inferInstanceAs (Decidable (d = 0))
  | d, .acquire :: ops => @instDecidableAnd _ _ (Nat.decLt _ _) (decBracketed (d + 1) ops)
  | d, .release :: ops => @instDecidableAnd _ _ (Nat.decLt _ _) (decBracketed (d - 1) ops)
  | d, .body _ :: ops => @instDecidableAnd _ _ (Nat.decLt _ _) (decBracketed d ops)

/-- The depth when the lock's function has returned. -/
def Point.after (d : Nat) : Point → Nat
  | .outside => d
  | .enter | .down | .own | .check | .one | .inc | .incStore _ => d + 1
  | .test | .dec | .decStore _ | .last | .clear | .zero | .up => d - 1

/-- The body, if the statement is one. -/
def Op.body? {κ : Type} : Op κ → Option κ
  | .body x => some x
  | _ => none

/-- `prog` is what is left of the function that a thread is in, `made` has the bodies of all
functions that were called, with the callers; `rest` is everything else. -/
structure Guarded (κ τ : Type) where
  lock : Locking
  prog : Nat → List (Op κ)
  made : List (Nat × κ)
  rest : τ

namespace Guarded

variable {κ τ ε : Type}

/-- The thread that runs. -/
def cur (w : Guarded κ τ) : Nat := w.lock.threads.cur

abbrev G (κ τ ε α : Type) := Cmd (Guarded κ τ) (Stop ⊕ ε) α

/-- What the lock's functions and the scheduler do. -/
def onLock (m : L Unit) : G κ τ ε Unit := fun w =>
  match m w.lock with
  | .ok (_, x) => .ok ((), { w with lock := x })
  | .error e => .error (.inl e)

def setProg (ops : List (Op κ)) : G κ τ ε Unit := Cmd.change fun w => { w with prog := update w.prog w.cur ops }

/-- The next statement of the running thread. -/
def go (k : Nat) (body : κ → List (Op κ) → G κ τ ε Unit) : G κ τ ε Unit := do
  if (← Cmd.read fun w => w.lock.point w.cur) ≠ .outside then onLock (statement k)
  else match ← Cmd.read fun w => w.prog w.cur with
    | [] => pure ()
    | .acquire :: ops => do
      setProg ops
      onLock lockAcquire
    | .release :: ops => do
      setProg ops
      onLock lockRelease
    | .body x :: ops => body x ops

/-- The running thread calls a function, or goes on in it; or the scheduler does something. -/
inductive Turn (κ : Type) where
  | call (f : List (Op κ))
  | go
  | sched (c : Call)

def Turn.cmd (k : Nat) (body : κ → List (Op κ) → G κ τ ε Unit) : Turn κ → G κ τ ε Unit
  | call f => Cmd.change fun w =>
    { w with prog := update w.prog w.cur f, made := w.made ++ (f.filterMap Op.body?).map (w.cur, ·) }
  | go => Guarded.go k body
  | sched c => onLock ((Act.call c).cmd k)

/-- A thread calls a function when it is in none, and the idle thread calls none. -/
def Turn.Legal (k : Nat) : Turn κ → Guarded κ τ → Prop
  | call f, w => w.lock.idle ∧ w.prog w.cur = [] ∧ w.cur ≠ w.lock.threads.idleThread ∧ Bracketed 0 f
  | go, w => w.lock.threads.outside ∧ (w.lock.point w.cur ≠ .outside ∨ w.prog w.cur ≠ [])
  | sched c, w => c.Legal w.lock.threads ∧ ¬ c.uses k ∧ (c.preempts ∨ w.lock.point w.cur = .outside) ∧
      (c.ends → w.lock.point w.cur = .outside ∧ w.prog w.cur = [])

instance {d : Nat} {ops : List (Op κ)} : Decidable (Bracketed d ops) := decBracketed d ops

instance (c : Call) : Decidable c.preempts :=
  match c with
  | .tick | .semaUp _ | .wakeup _ | .goOn => isTrue trivial
  | .setIntr _ | .threadStart _ _ | .idle | .semaInit _ _ | .semaDown _ | .ioqWait _ | .threadYield | .sysFork _ _
  | .sysExit _ | .sysWait | .threadExit => isFalse id

instance (c : Call) : Decidable c.ends :=
  match c with
  | .sysExit _ | .threadExit => isTrue trivial
  | .tick | .setIntr _ | .threadStart _ _ | .idle | .semaInit _ _ | .semaDown _ | .semaUp _ | .ioqWait _ | .wakeup _
  | .threadYield | .sysFork _ _ | .sysWait | .goOn => isFalse id

instance (w : Guarded κ τ) (p : Nat) : Decidable (w.prog p = []) := decidable_of_iff _ List.isEmpty_iff

instance (x : Locking) : Decidable x.idle := inferInstanceAs (Decidable (_ ∧ _))

instance (k : Nat) (t : Turn κ) (w : Guarded κ τ) : Decidable (t.Legal k w) :=
  match t with
  | .call _ => inferInstanceAs (Decidable (_ ∧ _ ∧ _ ∧ _))
  | .go => inferInstanceAs (Decidable (_ ∧ (_ ∨ _)))
  | .sched _ => inferInstanceAs (Decidable (_ ∧ _ ∧ _ ∧ _))

/-- Thread `p` is at a body. -/
def Inside (w : Guarded κ τ) (p : Nat) (x : κ) : Prop := ∃ ops, w.prog p = .body x :: ops ∧ w.lock.point p = .outside

/-- What thread `p` has asked for, and what is left of that. -/
def asked (w : Guarded κ τ) (p : Nat) : List κ := (w.made.filter (·.1 = p)).map (·.2)
def left (w : Guarded κ τ) (p : Nat) : List κ := (w.prog p).filterMap Op.body?

structure Ok (k : Nat) (w : Guarded κ τ) : Prop where
  lock : LockOk k w.lock
  prog : ∀ p, Bracketed ((w.lock.point p).after (w.lock.depth p)) (w.prog p)
  idle : w.prog w.lock.threads.idleThread = []

/-- Nothing but a call of the lock's semaphore has happened to the threads. -/
def Called (k : Nat) (s s' : Threads) : Prop :=
  s' = s ∨ ∃ c ev, c.Legal s ∧ (c = .semaDown k ∨ c = .semaUp k) ∧ Call.cmd c s = .ok (ev, s')

/-- The rest is as it was, and who is at a body stays there; what is newly asked for is to be
done. -/
structure Quiet (k : Nat) (t : Turn κ) (w w' : Guarded κ τ) : Prop where
  threads : (∀ c, t ≠ .sched c) ∧ Called k w.lock.threads w'.lock.threads ∨
    ∃ c ev, t = .sched c ∧ c.Legal w.lock.threads ∧ c.cmd w.lock.threads = .ok (ev, w'.lock.threads)
  rest : w'.rest = w.rest
  inside : ∀ p x, w.Inside p x → w'.Inside p x
  asked : ∀ p, ∃ l, w'.asked p = w.asked p ++ l ∧ w'.left p = w.left p ++ l
  made : w'.made = w.made ∨ ∃ f, t = .call f ∧ w'.made = w.made ++ (f.filterMap Op.body?).map (w.cur, ·)

end Guarded

section
variable {k p : Nat} {x y : Locking} {c : Call}

/-! ## What the lock's functions do to the depths -/

/-- Nobody but the thread that ran has moved in the lock's functions; `d` is the depth that it will
have. -/
structure Locking.Moved (k : Nat) (x : Locking) (d : Nat) (y : Locking) : Prop where
  threads : Guarded.Called k x.threads y.threads
  idle : y.threads.idleThread = x.threads.idleThread
  other : ∀ p, p ≠ x.threads.cur → y.point p = x.point p ∧ y.depth p = x.depth p
  cur : (y.point x.threads.cur).after (y.depth x.threads.cur) = d

theorem goto_moved {pt : Point} :
    runs (fun _ => False) (goto pt) (fun _ y => x.Moved k (pt.after (x.depth x.threads.cur)) y) x := by
  unfold goto
  rw [runs_change]
  refine ⟨.inl rfl, rfl, fun p hp => ⟨update_of_ne hp .., rfl⟩, ?_⟩
  change ((update x.point x.threads.cur pt) x.threads.cur).after _ = _
  rw [update_self]

theorem done_moved {f : Nat → Nat} : runs (fun _ => False) (done f) (fun _ y => x.Moved k (f (x.depth x.threads.cur)) y) x := by
  unfold done
  rw [runs_change]
  refine ⟨.inl rfl, rfl, fun p hp => ⟨update_of_ne hp .., update_of_ne hp ..⟩, ?_⟩
  change ((update x.point x.threads.cur .outside) x.threads.cur).after
    (update x.depth x.threads.cur (f (x.depth x.threads.cur)) x.threads.cur) = _
  rw [update_self, update_self]
  rfl

theorem lockAcquire_moved : runs (fun _ => False) lockAcquire (fun _ y => x.Moved k (x.depth x.threads.cur + 1) y) x := by
  unfold lockAcquire
  rw [runs_read_bind, runs_read_bind]
  exact runs_ite (fun _ => goto_moved) fun _ => goto_moved

theorem lockRelease_moved : runs (fun _ => True) lockRelease (fun _ y => x.Moved k (x.depth x.threads.cur - 1) y) x := by
  unfold lockRelease
  rw [runs_read_bind, runs_read_bind]
  exact runs_guard_bind (fun _ => trivial) fun _ => runs_mono goto_moved (fun _ he => he.elim) fun _ _ h => h

theorem Locking.Moved.of_eq {x' : Locking} {d : Nat} (h : x'.Moved k d y) (ht : x'.threads = x.threads)
    (hp : x'.point = x.point) (hd : x'.depth = x.depth) : x.Moved k d y := by
  obtain ⟨hthreads, hidle, hother, hcur⟩ := h
  rw [ht] at hthreads hidle hother hcur
  rw [hp, hd] at hother
  exact ⟨hthreads, hidle, hother, hcur⟩

/-- What a command returns, with what it does. -/
theorem runs_self {σ ε α : Type} {E : ε → Prop} {m : Cmd σ ε α} {P : α → σ → Prop} {s : σ} (h : runs E m P s) :
    runs E m (fun a s' => P a s' ∧ m s = .ok (a, s')) s := by
  unfold runs at *
  cases hm : m s with
  | ok r =>
    rw [hm] at h
    exact ⟨h, rfl⟩
  | error e =>
    rw [hm] at h
    exact h

theorem Steady.semaDown_lowered {s : Threads} (h : Steady s) (hidle : s.cur ≠ s.idleThread) (hv : (s.semas k).value ≤ 1) :
    runs (fun _ => False) (semaDown k) (fun _ s' => Lowered k s s') s := by
  have h₁ : Steady { s with intr := false } := h.setIntr
  have hloop : runs (fun _ => False) (Thread.semaDownLoop k s.intr) (fun _ s' => Lowered k { s with intr := false } s')
      { s with intr := false } := semaDownLoop_lowered h₁.toScheduled hidle hv
  have hrun : semaDown k s = Thread.semaDownLoop k s.intr { s with intr := false } := rfl
  unfold runs at hloop ⊢
  rw [hrun]
  split at hloop
  · exact ⟨hloop.idle, hloop.other, hloop.gone, hloop.value, hloop.sleepers, hloop.cur⟩
  · exact hloop

/-- A statement of the lock's functions. -/
theorem LockOk.statement_moved (h : LockOk k x) (hl : Act.Legal k .go x) : runs (fun _ => True) (Thread.statement k)
    (fun _ y => x.Moved k ((x.point x.threads.cur).after (x.depth x.threads.cur)) y) x := by
  obtain ⟨hout, hpt⟩ := hl
  have hidle : x.threads.cur ≠ x.threads.idleThread := fun he => hpt (he ▸ h.idle.1)
  generalize hd : x.depth x.threads.cur = d
  have hgoto : ∀ {pt : Point} {x' : Locking}, x'.threads = x.threads → x'.point = x.point → x'.depth = x.depth →
      runs (fun _ => True) (goto pt) (fun _ y => x.Moved k (pt.after d) y) x' := by
    intro pt x' ht hp hde
    refine runs_mono (goto_moved (k := k)) (fun _ hf => hf.elim) fun _ y hy => ?_
    rw [ht, hde, hd] at hy
    exact hy.of_eq ht hp hde
  have hdone : ∀ {f : Nat → Nat} {x' : Locking}, x'.threads = x.threads → x'.point = x.point → x'.depth = x.depth →
      runs (fun _ => True) (done f) (fun _ y => x.Moved k (f d) y) x' := by
    intro f x' ht hp hde
    refine runs_mono (done_moved (k := k)) (fun _ hf => hf.elim) fun _ y hy => ?_
    rw [ht, hde, hd] at hy
    exact hy.of_eq ht hp hde
  unfold Thread.statement
  rw [runs_read_bind, runs_read_bind]
  cases hp : x.point x.threads.cur with
  | outside => exact absurd hp hpt
  | enter =>
    change runs _ (onThreads (semaDown k)) _ { x with point := update x.point x.threads.cur .down }
    refine runs_on ?_
    refine runs_mono (runs_self (h.steady.semaDown_lowered hidle h.value)) (fun _ he => he.elim) fun _ s' hs' => ?_
    refine ⟨.inr ⟨.semaDown k, none, ⟨hout, hidle⟩, .inl rfl, bind_ok hs'.2⟩, hs'.1.idle,
      fun p hne => ⟨update_of_ne hne .., rfl⟩, ?_⟩
    change (update x.point x.threads.cur .down x.threads.cur).after (x.depth x.threads.cur) = _
    rw [update_self, hd]
    rfl
  | down => exact hgoto rfl rfl rfl
  | own => exact runs_change_bind.2 (hgoto rfl rfl rfl)
  | check =>
    rw [runs_read_bind]
    exact runs_guard_bind (fun _ => trivial) fun _ => hgoto rfl rfl rfl
  | one => exact runs_change_bind.2 (hdone rfl rfl rfl)
  | inc =>
    rw [runs_read_bind]
    exact hgoto rfl rfl rfl
  | incStore v => exact runs_change_bind.2 (hdone rfl rfl rfl)
  | test =>
    rw [runs_read_bind]
    exact runs_ite (fun _ => hgoto rfl rfl rfl) fun _ => hgoto rfl rfl rfl
  | dec =>
    rw [runs_read_bind]
    exact hgoto rfl rfl rfl
  | decStore v => exact runs_change_bind.2 (hdone rfl rfl rfl)
  | last =>
    rw [runs_read_bind]
    exact runs_guard_bind (fun _ => trivial) fun _ => hgoto rfl rfl rfl
  | clear => exact runs_change_bind.2 (hgoto rfl rfl rfl)
  | zero => exact runs_change_bind.2 (hgoto rfl rfl rfl)
  | up =>
    have ho : x.owns k x.threads.cur := owns_of_point hout (by rw [hp]; trivial)
    have hup : runs (fun _ => True) (onThreads (semaUp k)) (fun _ y => y.threads.idleThread = x.threads.idleThread ∧
        y.threads.cur = x.threads.cur ∧ y.point = x.point ∧ y.depth = x.depth ∧
        Call.cmd (.semaUp k) x.threads = .ok (none, y.threads)) x :=
      runs_on (runs_mono (runs_self (semaUp_lifted h.steady (h.owner _ ho).1)) (fun _ he => he.elim) fun _ s' hs' =>
        ⟨hs'.1.idle, hs'.1.cur, rfl, rfl, bind_ok hs'.2⟩)
    refine runs_seq hup fun _ y hy => ?_
    obtain ⟨hi, hc, hpy, hdy, hcall⟩ := hy
    unfold done
    rw [runs_change]
    refine ⟨.inr ⟨.semaUp k, none, hout, .inr rfl, hcall⟩, hi, fun p hne => ⟨?_, ?_⟩, ?_⟩
    · change update y.point y.threads.cur .outside p = _
      rw [hc, hpy, update_of_ne hne]
    · change update y.depth y.threads.cur _ p = _
      rw [hc, hdy, update_of_ne hne]
    · change (update y.point y.threads.cur .outside x.threads.cur).after
        (update y.depth y.threads.cur (y.depth y.threads.cur - 1) x.threads.cur) = _
      rw [hc, update_self, update_self, hdy, hd]
      rfl

/-- The idle thread stays the same. -/
theorem Effect.idleThread {s s₁ : Threads} {t : Task} (he : Effect s t c s₁) : s₁.idleThread = s.idleThread := by
  cases he with
  | sysExit v u parent tp hroot hu hpar htp => exact (informed_frame (s.exiting t v) parent tp).2.1
  | _ => rfl

theorem Steady.idleThread_call {s s' : Threads} (h : Steady s) (hl : c.Legal s) {ev : Option Event}
    (he : c.cmd s = .ok (ev, s')) : s'.idleThread = s.idleThread := by
  obtain ⟨t, hc, -⟩ := h.inCharge
  obtain ⟨s₁, heff, hres⟩ := runs_of_ok (call_effect h hl hc) he
  exact hres.same.idleThread.trans heff.idleThread

end

/-! ## Steps -/

namespace Guarded

section
variable {κ τ ε : Type} {k p q d : Nat} {w w' : Guarded κ τ} {x x' : κ} {y : Locking} {ops : List (Op κ)} {t : Turn κ}
  {body : κ → List (Op κ) → G κ τ ε Unit} {E : Stop ⊕ ε → Prop} {P : Unit → Guarded κ τ → Prop} {m : L Unit}

theorem runs_onLock {E' : Stop → Prop} {Q : Locking → Prop} (h : runs E' m (fun _ y => Q y) w.lock)
    (hQ : ∀ y, Q y → P () { w with lock := y }) (hE : ∀ e, E' e → E (.inl e)) : runs E (onLock m) P w := by
  unfold runs onLock at *
  cases hm : m w.lock with
  | ok r =>
    rw [hm] at h
    exact hQ _ h
  | error e =>
    rw [hm] at h
    exact hE e h

theorem onLock_made (m : L Unit) : Keeps (·.made) (onLock m : G κ τ ε Unit) := by
  intro w u w' he
  unfold onLock at he
  split at he
  · cases he
    rfl
  · cases he

theorem go_made (hbody : ∀ x ops, Keeps (·.made) (body x ops)) : Keeps (·.made) (Guarded.go k body) := by
  unfold Guarded.go
  refine .bind (.read _) fun pt => .ite (onLock_made _) (.bind (.read _) fun ops => ?_)
  cases ops with
  | nil => exact .pure ()
  | cons op ops =>
    cases op with
    | acquire => exact .bind (.change fun _ => rfl) fun _ => onLock_made _
    | release => exact .bind (.change fun _ => rfl) fun _ => onLock_made _
    | body x => exact hbody x ops

theorem Ok.depth (h : Ok k w) (hi : w.Inside p x) : 0 < w.lock.depth p := by
  obtain ⟨ops, hp, hpt⟩ := hi
  have hb := h.prog p
  rw [hp, hpt] at hb
  exact hb.1

theorem Ok.owns (h : Ok k w) (hi : w.Inside p x) : w.lock.owns k p := by
  have hd := h.depth hi
  obtain ⟨ops, -, hpt⟩ := hi
  unfold Locking.owns
  rw [hpt]
  exact ⟨hd, fun he => by cases he⟩

/-- One thread at a time is at a body. -/
theorem Ok.inside_unique (h : Ok k w) (hp : w.Inside p x) (hq : w.Inside q x') : q = p :=
  (h.lock.owner p (h.owns hp)).2.1 q (h.owns hq)

/-- The thread that runs has moved in the lock's functions; it goes on with `ops`. -/
theorem Ok.moved (h : Ok k w) (hout : ∀ x, ¬ w.Inside w.cur x) (hidle : w.cur ≠ w.lock.threads.idleThread) (hy : LockOk k y)
    (hm : w.lock.Moved k d y) (hb : Bracketed d ops) {made : List (Nat × κ)} {l : List κ}
    (hmade : made = w.made ++ l.map (w.cur, ·))
    (hops : ops.filterMap Op.body? = (w.prog w.cur).filterMap Op.body? ++ l) (hsched : ∀ c, t ≠ .sched c)
    (hcall : l = [] ∨ ∃ f, t = .call f ∧ l = f.filterMap Op.body?) :
    Ok k { w with lock := y, prog := update w.prog w.cur ops, made := made } ∧
      Quiet k t w { w with lock := y, prog := update w.prog w.cur ops, made := made } := by
  refine ⟨⟨hy, fun p => ?_, ?_⟩, .inl ⟨hsched, hm.threads⟩, rfl, fun p x hin => ?_, fun p => ?_, ?_⟩
  · by_cases hp : p = w.cur
    · rw [hp]
      change Bracketed _ (update w.prog w.cur ops w.cur)
      rw [update_self]
      exact hm.cur.symm ▸ hb
    · obtain ⟨hpt, hd⟩ := hm.other p hp
      change Bracketed ((y.point p).after (y.depth p)) (update w.prog w.cur ops p)
      rw [update_of_ne hp, hpt, hd]
      exact h.prog p
  · change update w.prog w.cur ops y.threads.idleThread = []
    rw [hm.idle, update_of_ne (Ne.symm hidle)]
    exact h.idle
  · have hp : p ≠ w.cur := by
      rintro rfl
      exact hout x hin
    obtain ⟨ops', hprog, hpt⟩ := hin
    exact ⟨ops', (update_of_ne hp ..).trans hprog, (hm.other p hp).1.trans hpt⟩
  · by_cases hp : p = w.cur
    · refine ⟨l, ?_, ?_⟩
      · change (made.filter (·.1 = p)).map (·.2) = _
        rw [hmade, List.filter_append, List.map_append, hp]
        congr 1
        simp [List.filter_map, Function.comp_def]
      · change (update w.prog w.cur ops p).filterMap Op.body? = _
        rw [hp, update_self, hops]
        rfl
    · have hnone : (l.map (w.cur, ·)).filter (·.1 = p) = [] := by
        rw [List.filter_eq_nil_iff]
        intro e he
        obtain ⟨x, -, rfl⟩ := List.mem_map.1 he
        simpa using Ne.symm hp
      refine ⟨[], ?_, ?_⟩
      · change (made.filter (·.1 = p)).map (·.2) = _
        rw [hmade, List.filter_append, hnone, List.append_nil, List.append_nil]
        rfl
      · change (update w.prog w.cur ops p).filterMap Op.body? = _
        rw [update_of_ne hp, List.append_nil]
        rfl
  · rcases hcall with rfl | ⟨f, hf, rfl⟩
    · exact .inl (hmade.trans (List.append_nil _))
    · exact .inr ⟨f, hf, hmade⟩

/-- A body is over. -/
theorem Ok.popped (h : Ok k w) (hprog : w.prog w.cur = .body x :: ops) (hidle : w.cur ≠ w.lock.threads.idleThread) (r : τ) :
    Ok k { w with prog := update w.prog w.cur ops, rest := r } := by
  refine ⟨h.lock, fun p => ?_, (update_of_ne (Ne.symm hidle) ..).trans h.idle⟩
  have hb := h.prog p
  change Bracketed _ (update w.prog w.cur ops p)
  by_cases hp : p = w.cur
  · subst hp
    rw [hprog] at hb
    rw [update_self]
    exact hb.2
  · rw [update_of_ne hp]
    exact hb

theorem Ok.rested (h : Ok k w) (r : τ) : Ok k { w with rest := r } := ⟨h.lock, h.prog, h.idle⟩

/-- What the scheduler does. -/
theorem Ok.sched {c : Call} (h : Ok k w) (hl : (Turn.sched c : Turn κ).Legal k w) :
    runs (fun _ => True) ((Act.call c).cmd k) (fun _ y => LockOk k y ∧ y.point = w.lock.point ∧ y.depth = w.lock.depth ∧
      y.threads.idleThread = w.lock.threads.idleThread ∧ ∃ ev, c.cmd w.lock.threads = .ok (ev, y.threads)) w.lock := by
  obtain ⟨hlegal, huses, hpre, hends⟩ := hl
  have hdepth : c.ends → w.lock.depth w.cur = 0 := by
    intro he
    obtain ⟨hpt, hprog⟩ := hends he
    have hb := h.prog w.cur
    rw [hprog, hpt] at hb
    exact hb
  unfold runs
  cases hm : (Act.call c).cmd k w.lock with
  | error e => trivial
  | ok r =>
    have hok := runs_of_ok (h.lock.call ⟨hlegal, huses, hpre, hdepth⟩) hm
    refine ⟨hok, ?_⟩
    obtain ⟨ev, x, hon, hpure⟩ := bind_eq_ok.1 hm
    cases hpure
    unfold onThreads Cmd.on at hon
    split at hon
    · rename_i s' hc
      cases hon
      exact ⟨rfl, rfl, h.lock.steady.idleThread_call hlegal hc, ev, hc⟩
    · cases hon

/-- A step keeps the invariant, and leaves the rest alone, or is one of the body; a thread that goes on in
the lock's functions is not stopped. -/
theorem Ok.turn (h : Ok k w) (hl : t.Legal k w) (hE : ∀ c, t = .sched c → ∀ e, E (.inl e))
    (hquiet : ∀ w', Ok k w' → Quiet k t w w' → P () w')
    (hbody : ∀ x ops, t = .go → w.prog w.cur = .body x :: ops → w.lock.point w.cur = .outside →
      w.cur ≠ w.lock.threads.idleThread → runs E (body x ops) P w) : runs E (t.cmd k body) P w := by
  have hmoved : ∀ {m : L Unit} {d : Nat} {ops : List (Op κ)}, (∀ x, ¬ w.Inside w.cur x) → w.cur ≠ w.lock.threads.idleThread →
      runs (fun _ => False) m (fun _ y => LockOk k y ∧ w.lock.Moved k d y) w.lock → Bracketed d ops →
      ops.filterMap Op.body? = (w.prog w.cur).filterMap Op.body? → (∀ c, t ≠ .sched c) →
      runs E (onLock m) P { w with prog := update w.prog w.cur ops } := by
    intro m d ops hin hidle hm hb hops hsched
    refine runs_onLock (w := { w with prog := update w.prog w.cur ops }) hm (fun y hy => ?_) fun _ he => he.elim
    obtain ⟨hok, hq⟩ := h.moved (t := t) (l := []) hin hidle hy.1 hy.2 hb (List.append_nil _).symm
      (hops.trans (List.append_nil _).symm) hsched (.inl rfl)
    exact hquiet _ hok hq
  cases t with
  | call f =>
    obtain ⟨⟨-, hpt⟩, hnil, hidle, hb⟩ := hl
    have hdepth : Bracketed (w.lock.depth w.cur) (w.prog w.cur) := by
      have hb' := h.prog w.cur
      rwa [show w.lock.point w.cur = .outside from hpt] at hb'
    rw [hnil] at hdepth
    have hin : ∀ x, ¬ w.Inside w.cur x := by
      rintro x ⟨ops, hprog, -⟩
      rw [hnil] at hprog
      cases hprog
    obtain ⟨hok, hq⟩ := h.moved (t := .call f) (y := w.lock) (d := 0) hin hidle h.lock ⟨.inl rfl, rfl, fun _ _ => ⟨rfl, rfl⟩, by
      change (w.lock.point w.cur).after _ = _
      rw [show w.lock.point w.cur = .outside from hpt]
      exact hdepth⟩ hb rfl (by rw [hnil]; rfl) nofun (.inr ⟨f, rfl, rfl⟩)
    exact hquiet _ hok hq
  | sched c =>
    refine runs_onLock (h.sched hl) (fun y hy => ?_) fun e _ => hE c rfl e
    obtain ⟨hlock, hpt, hd, hidle, ev, he⟩ := hy
    refine hquiet _ ⟨hlock, fun p => ?_, ?_⟩ ⟨.inr ⟨c, ev, rfl, hl.1, he⟩, rfl, fun p x hin => ?_,
      fun p => ⟨[], (List.append_nil _).symm, (List.append_nil _).symm⟩, .inl rfl⟩
    · rw [hpt, hd]
      exact h.prog p
    · rw [hidle]
      exact h.idle
    · obtain ⟨ops, hprog, hout⟩ := hin
      exact ⟨ops, hprog, hpt ▸ hout⟩
  | go =>
    obtain ⟨hout, hgo⟩ := hl
    unfold Turn.cmd Guarded.go
    rw [runs_read_bind]
    refine runs_ite (fun hpt => ?_) fun hpt => ?_
    · have hidle : w.cur ≠ w.lock.threads.idleThread := fun he => hpt (he ▸ h.lock.idle.1)
      have hin : ∀ x, ¬ w.Inside w.cur x := fun x hx => hpt (hx.choose_spec.2)
      have hm := runs_both (h.lock.statement ⟨hout, hpt⟩) (h.lock.statement_moved ⟨hout, hpt⟩)
      have hrun := hmoved hin hidle (runs_mono hm (fun _ he => he.1) fun _ _ hy => hy) (h.prog w.cur) rfl nofun
      rwa [update_eq_self] at hrun
    · have hpt' := not_not.1 hpt
      have hne := hgo.resolve_left fun hc => hpt hc
      have hidle : w.cur ≠ w.lock.threads.idleThread := fun he => hne (he ▸ h.idle)
      have hb : Bracketed (w.lock.depth w.cur) (w.prog w.cur) := by
        have hb' := h.prog w.cur
        rwa [hpt'] at hb'
      rw [runs_read_bind]
      cases hprog : w.prog w.cur with
      | nil => exact absurd hprog hne
      | cons op ops =>
        rw [hprog] at hb
        have hin : (∀ x, op ≠ .body x) → ∀ x, ¬ w.Inside w.cur x := by
          rintro hop x ⟨ops', hx, -⟩
          rw [hprog] at hx
          exact hop x (List.cons.inj hx).1
        cases op with
        | acquire =>
          refine runs_change_bind.2 ?_
          have hm := runs_both (h.lock.lockAcquire ⟨⟨⟨hout, hpt'⟩, hidle⟩, fun _ => hb.1⟩) (lockAcquire_moved (k := k))
          exact hmoved (hin nofun) hidle (runs_mono hm (fun _ he => he.1) fun _ _ hy => hy) hb.2 (by rw [hprog]; rfl) nofun
        | release =>
          refine runs_change_bind.2 ?_
          have hm := runs_both (h.lock.lockRelease ⟨⟨hout, hpt'⟩, hb.1⟩) (lockRelease_moved (k := k))
          exact hmoved (hin nofun) hidle (runs_mono hm (fun _ he => he.1) fun _ _ hy => hy) hb.2 (by rw [hprog]; rfl) nofun
        | body x => exact hbody x ops rfl hprog hpt' hidle

end

/-! ## Bodies that work on a resource -/

section
variable {σ κ ρ ε : Type} {k : Nat} {next : κ → Cmd σ ε (κ ⊕ ρ)} {w w' : Guarded κ (Shared Nat σ κ ρ)} {s₀ : σ}

/-- The running thread takes the next step of the body `x`, the first one if it has not begun. -/
def step (next : κ → Cmd σ ε (κ ⊕ ρ)) (x : κ) (ops : List (Op κ)) : G κ (Shared Nat σ κ ρ) ε Unit := fun w =>
  let (sh, y) := match w.rest.sect w.cur with
    | none => (w.rest.enter w.cur x, x)
    | some (_, y) => (w.rest, y)
  match next y sh.res with
  | .ok (.inl z, s) => .ok ((), { w with rest := sh.advanced w.cur x s (.inl z) })
  | .ok (.inr r, s) => .ok ((), { w with prog := update w.prog w.cur ops, rest := sh.advanced w.cur x s (.inr r) })
  | .error e => .error (.inr e)

/-- The resource is what the sections make of it; who is in one is at its body. -/
structure Serves (next : κ → Cmd σ ε (κ ⊕ ρ)) (k : Nat) (s₀ : σ) (w : Guarded κ (Shared Nat σ κ ρ)) : Prop extends Ok k w where
  shared : w.rest.Ok next s₀
  sect : ∀ p x y, w.rest.sect p = some (x, y) → w.Inside p x
  asked : ∀ p, w.asked p = (w.rest.log.filter (·.1 = p)).map (·.2.1) ++ w.left p

theorem Serves.quiet (h : Serves next k s₀ w) {t : Turn κ} (hok : Ok k w') (hq : Quiet k t w w') : Serves next k s₀ w' := by
  refine ⟨hok, ?_, fun p x y hp => ?_, fun p => ?_⟩
  · rw [hq.rest]
    exact h.shared
  · rw [hq.rest] at hp
    exact hq.inside p x (h.sect p x y hp)
  · obtain ⟨l, hasked, hleft⟩ := hq.asked p
    rw [hasked, hleft, hq.rest, h.asked p, List.append_assoc]

/-- A step of a body. -/
theorem Serves.step {x : κ} {ops : List (Op κ)} (h : Serves next k s₀ w) (hprog : w.prog w.cur = .body x :: ops)
    (hpt : w.lock.point w.cur = .outside) (hidle : w.cur ≠ w.lock.threads.idleThread) :
    runs (fun _ => True) (step next x ops) (fun _ w' => Serves next k s₀ w') w := by
  have hin : w.Inside w.cur x := ⟨ops, hprog, hpt⟩
  have honly : w.rest.Only w.cur := by
    intro q hq
    cases hs : w.rest.sect q with
    | none => rfl
    | some r => exact absurd (h.inside_unique hin (h.sect q r.1 r.2 hs)) hq
  -- the section, begun if it had not been
  have hbegun : ∃ sh : Shared Nat σ κ ρ, ∃ y, (match w.rest.sect w.cur with
      | none => (w.rest.enter w.cur x, x)
      | some (_, y) => (w.rest, y)) = (sh, y) ∧ sh.Ok next s₀ ∧ sh.Only w.cur ∧ sh.sect w.cur = some (x, y) ∧
      sh.log = w.rest.log := by
    cases hs : w.rest.sect w.cur with
    | none =>
      have hnone : ∀ q, w.rest.sect q = none := fun q => by
        by_cases hq : q = w.cur
        · rw [hq, hs]
        · exact honly q hq
      exact ⟨_, x, rfl, h.shared.enter hnone w.cur x, fun q hq => (Shared.enter_sect_ne hq).trans (hnone q),
        Shared.enter_sect_self .., rfl⟩
    | some r =>
      obtain ⟨x', y⟩ := r
      obtain ⟨ops', hprog', -⟩ := h.sect w.cur x' y hs
      rw [hprog] at hprog'
      cases hprog'
      exact ⟨w.rest, y, rfl, h.shared, honly, hs, rfl⟩
  obtain ⟨sh, y, hbegin, hok, honly', hsect, hlog⟩ := hbegun
  unfold runs Guarded.step
  rw [hbegin]
  dsimp only
  cases hn : next y sh.res with
  | error e => trivial
  | ok r =>
    obtain ⟨out, s⟩ := r
    have hadv := hok.advance honly' hsect hn
    have hother : ∀ q a b, q ≠ w.cur → (sh.advanced w.cur x s out).sect q ≠ some (a, b) := fun q a b hq hs => by
      rw [Shared.advanced_sect_ne hq, honly' q hq] at hs
      cases hs
    cases out with
    | inl z =>
      refine ⟨h.rested _, hadv, fun q a b hq => ?_, fun q => ?_⟩
      by_cases hqc : q = w.cur
      · subst hqc
        change (sh.advanced w.cur x s (.inl z)).sect w.cur = _ at hq
        rw [Shared.advanced_inl_sect_self] at hq
        cases hq
        exact hin
      · exact absurd hq (hother q a b hqc)
      · change w.asked q = (sh.log.filter (·.1 = q)).map (·.2.1) ++ w.left q
        rw [hlog]
        exact h.asked q
    | inr r =>
      refine ⟨h.popped hprog hidle _, hadv, fun q a b hq => ?_, fun q => ?_⟩
      by_cases hqc : q = w.cur
      · subst hqc
        change (sh.advanced w.cur x s (.inr r)).sect w.cur = _ at hq
        rw [Shared.advanced_inr_sect_self] at hq
        cases hq
      · exact absurd hq (hother q a b hqc)
      · change w.asked q = ((sh.log ++ [(w.cur, x, r)]).filter (·.1 = q)).map (·.2.1) ++
          (update w.prog w.cur ops q).filterMap Op.body?
        rw [h.asked q, hlog, List.filter_append, List.map_append, List.append_assoc]
        congr 1
        by_cases hqc : q = w.cur
        · subst hqc
          rw [update_self]
          unfold left
          rw [hprog]
          simp [Op.body?]
        · rw [update_of_ne hqc]
          simp [Ne.symm hqc, left]

theorem step_made (next : κ → Cmd σ ε (κ ⊕ ρ)) (x : κ) (ops : List (Op κ)) :
    Keeps (·.made) (Guarded.step next x ops : G κ (Shared Nat σ κ ρ) ε Unit) := by
  intro w u w' he
  unfold Guarded.step at he
  dsimp only at he
  split at he
  · cases he
    rfl
  · cases he
    rfl
  · cases he

/-- After `lock_init`, with nobody in a function. -/
def opened (s : Threads) (k : Nat) (s₀ : σ) : Guarded κ (Shared Nat σ κ ρ) :=
  ⟨lockInit s k, fun _ => [], [], ⟨s₀, fun _ => none, []⟩⟩

/-- In every run the resource is what the finished bodies have made of it, one behind the
other, and the steps of the only one that goes on. -/
theorem served {s : Threads} {l : List Event} (hs : Reachable s l) (hin : ∀ p old, s.at p ≠ some (.semaDown k old))
    {ts : List (Turn κ)} (h : Steps (Turn.cmd k (Guarded.step next)) (Turn.Legal k) ts (opened s k s₀) w) :
    Serves next k s₀ w := by
  refine h.invariant (I := Serves next k s₀) (fun t w u w' hw hl he => ?_)
    ⟨⟨lockInit_ok hs hin, fun _ => rfl, rfl⟩, .init next s₀, nofun, fun _ => rfl⟩
  have hrun : runs (fun _ => True) (t.cmd k (Guarded.step next)) (fun _ w' => Serves next k s₀ w') w :=
    hw.turn hl (fun _ _ _ => trivial) (fun w' hok hq => hw.quiet hok hq) fun x ops _ hprog hpt hidle => hw.step hprog hpt hidle
  have hw' := runs_of_ok hrun he
  exact hw'

end

end Guarded

end Enix.Thread
