import Enix.Thread.Ioqueue
import Enix.Shell.Fifo

/-!
# The queue is a FIFO (`device/ioqueue.c`)

A run from `ioqueue_init` with the bytes that the calls of `ioq_putchar` have
stored and those that the calls of `ioq_getchar` have returned. A step stores or
takes out one byte, behind the loop of the function, or leaves the ring alone and
puts the thread to sleep.

* `queue_fifo`: what was stored is what was returned and, behind it, what the ring
  holds, whoever slept and woke up in between.
-/
set_option autoImplicit false

namespace Enix.Thread
open Enix.Core Enix.Kernel Function

/-- The function that the running thread is in, or enters. -/
def QAct.use (act : QAct) (x : Queue) : Option Use :=
  match act with
  | getchar => some .getchar
  | putchar byte => some (.putchar byte)
  | resume =>
    match x.place x.threads.cur with
    | .outside => none
    | .locking u => some u
    | .waiting u => some u
  | call _ => none

/-- The byte of a call of `ioq_putchar` that returns in the step from `x` to `y`. -/
def QAct.stored (act : QAct) (x y : Queue) : List UInt8 :=
  if y.place x.threads.cur = .outside then
    match act.use x with
    | some (.putchar byte) => [byte]
    | _ => []
  else []

/-- Steps that meet `C`, with the bytes stored and the bytes returned. -/
inductive QueueRun (a : Addr) (C : QAct → Queue → Prop) (x₀ : Queue) : List UInt8 → List UInt8 → Queue → Prop where
  | start : QueueRun a C x₀ [] [] x₀
  | step {puts gets : List UInt8} {act : QAct} {r : Option UInt8} {x y : Queue} (h : QueueRun a C x₀ puts gets x)
      (hc : C act x) (he : act.cmd a x = .ok (r, y)) : QueueRun a C x₀ (puts ++ act.stored x y) (gets ++ r.toList) y

/-- The ring holds what was stored and not returned, and the functions of the queue say so. -/
structure IsFifo (puts gets : List UInt8) (x : Queue) : Prop where
  order : puts = gets ++ Fs.ringBytes x.ring
  head : x.ring.head < 64
  tail : x.ring.tail < 64
  capacity : (Fs.ringBytes x.ring).length ≤ 63
  length : Fs.ioqLength x.ring = (Fs.ringBytes x.ring).length
  full : x.threads.intr = false → ioqFull x = .ok (decide ((Fs.ringBytes x.ring).length = 63), x)
  empty : x.threads.intr = false → ioqEmpty x = .ok (decide ((Fs.ringBytes x.ring).length = 0), x)

/-! ## What a step does to the ring -/

/-- The ring behind the loop. -/
def Use.effect (u : Use) (q : Ioqueue) : Ioqueue :=
  match u with
  | getchar => { q with tail := Fs.nextPos q.tail }
  | putchar byte => { q with buf := update q.buf q.head byte, head := Fs.nextPos q.head }

/-- The result. -/
def Use.result (u : Use) (q : Ioqueue) : Option UInt8 :=
  match u with
  | getchar => some (q.buf q.tail)
  | putchar _ => none

def Use.bytes : Use → List UInt8
  | getchar => []
  | putchar byte => [byte]

/-- The thread that ran in `x` has gone to sleep, or has done its work. -/
inductive Outcome (u : Use) (x : Queue) (r : Option UInt8) (y : Queue) : Prop where
  | slept (hr : r = none) (hring : y.ring = x.ring) (hplace : y.place x.threads.cur ≠ .outside)
  | done (hb : ¬ x.blocks u) (hr : r = u.result x.ring) (hring : y.ring = u.effect x.ring)
      (hplace : y.place x.threads.cur = .outside)

section
variable {a : Addr} {x y : Queue} {u : Use} {act : QAct} {r : Option UInt8} {p : Nat} {E : Stop → Prop}

theorem wait_slept (hp : y.place p ≠ .outside) :
    runs (fun _ => True) (wait a u) (fun r z => r = none ∧ z.ring = y.ring ∧ z.place p ≠ .outside) y := by
  unfold wait setPlace
  rw [runs_change_bind]
  refine runs_seq (P := fun _ z => z.ring = y.ring ∧ z.place p ≠ .outside) (runs_on ?_) fun _ z hz => ⟨rfl, hz⟩
  unfold runs
  split
  · refine ⟨rfl, ?_⟩
    change update y.place y.threads.cur (.waiting u) p ≠ .outside
    by_cases hpc : p = y.threads.cur
    · rw [hpc, update_self]
      simp
    · rw [update_of_ne hpc]
      exact hp
  · trivial

theorem taken_slept {q : Nat} (hp : y.place p ≠ .outside) :
    runs (fun _ => True) (taken a u q) (fun r z => r = none ∧ z.ring = y.ring ∧ z.place p ≠ .outside) y := by
  unfold taken
  rw [runs_read_bind]
  split
  · exact ⟨rfl, rfl, hp⟩
  · rw [runs_change_bind, runs_read_bind]
    refine runs_guard_bind (fun _ => trivial) fun _ => ?_
    rw [runs_change_bind]
    exact wait_slept (y := { y with holder := some q, holderRepeatNr := 1 }) hp

theorem lockAndWait_slept : runs (fun _ => True) (lockAndWait a u)
    (fun r z => r = none ∧ z.ring = x.ring ∧ z.place x.threads.cur ≠ .outside) x := by
  have hpl : ∀ w : Place, w ≠ .outside → update x.place x.threads.cur w x.threads.cur ≠ .outside := by
    intro w hw
    rw [update_self]
    exact hw
  unfold lockAndWait
  rw [runs_read_bind, runs_read_bind]
  refine runs_ite (fun _ => ?_) fun _ => ?_
  · unfold setPlace
    rw [runs_change_bind]
    refine runs_seq (P := fun _ z => z.ring = x.ring ∧ z.place x.threads.cur ≠ .outside) (runs_on ?_) fun _ z hz => ?_
    · unfold runs
      split
      · exact ⟨rfl, hpl _ (by simp)⟩
      · trivial
    · refine runs_post (taken_slept hz.2) fun r w hw => ?_
      rw [← hz.1]
      exact hw
  · rw [runs_change_bind]
    unfold wait setPlace
    rw [runs_change_bind]
    refine runs_seq (P := fun _ z => z.ring = x.ring ∧ z.place x.threads.cur ≠ .outside) (runs_on ?_)
      fun _ z hz => ⟨rfl, hz⟩
    unfold runs
    split
    · exact ⟨rfl, hpl _ (by simp)⟩
    · trivial

theorem finish_done : runs (fun _ => True) (finish a u)
    (fun r z => r = u.result x.ring ∧ z.ring = u.effect x.ring ∧ z.place = x.place) x := by
  have hwake : ∀ (ring : Ioqueue) (byte : Option UInt8), runs (fun _ => True) (do
      Cmd.when ((← Cmd.read (·.threads.sleepers (u.other a))) ≠ none) (scheduler (wakeup (u.other a)))
      pure byte : Q (Option UInt8)) (fun r z => r = byte ∧ z.ring = ring ∧ z.place = x.place) { x with ring := ring } := by
    intro ring byte
    rw [runs_read_bind]
    refine runs_seq (P := fun _ z => z.ring = ring ∧ z.place = x.place) (runs_when (fun _ => runs_on ?_) fun _ => ⟨rfl, rfl⟩)
      fun _ z hz => ⟨rfl, hz⟩
    unfold runs
    split
    · exact ⟨rfl, rfl⟩
    · trivial
  unfold finish
  cases u with
  | getchar => exact hwake _ _
  | putchar byte => exact hwake _ _

/-- The loop and what is behind it. -/
theorem loop_outcome (hpl : x.place x.threads.cur = .outside) :
    runs (fun _ => True) (loop a u) (fun r y => Outcome u x r y) x := by
  unfold loop
  refine runs_seq (runs_mono (runs_test x u) (fun _ _ => trivial) fun _ _ h => h) fun b y hy => ?_
  obtain ⟨rfl, hb⟩ := hy
  refine runs_ite (fun _ => ?_) fun hbf => ?_
  · exact runs_post lockAndWait_slept fun r z hz => .slept hz.1 hz.2.1 hz.2.2
  · refine runs_post finish_done fun r z hz => .done (fun hbl => hbf (hb.2 hbl)) hz.1 hz.2.1 ?_
    rw [hz.2.2]
    exact hpl

theorem unlock_keeps : runs (fun _ => True) (unlock a) (fun _ y => y.ring = x.ring) x := by
  unfold unlock
  rw [runs_read_bind, runs_read_bind]
  refine runs_guard_bind (fun _ => trivial) fun _ => ?_
  rw [runs_read_bind]
  refine runs_ite (fun _ => rfl) fun _ => ?_
  refine runs_guard_bind (fun _ => trivial) fun _ => ?_
  rw [runs_change_bind]
  refine runs_on ?_
  unfold runs
  split
  · rfl
  · trivial

/-- What a step of a thread in the queue's functions does. -/
theorem QueueOk.outcome (h : QueueOk a x) (hl : act.Legal a x) (hu : act.use x = some u) (he : act.cmd a x = .ok (r, y)) :
    Outcome u x r y := by
  have enter : ∀ {e : Stop} {u : Use}, x.place x.threads.cur = .outside → runs (fun _ => True) (do
      Cmd.guard ((← Cmd.read (·.threads.intr)) = false) e
      Thread.loop a u : Q (Option UInt8)) (fun r y => Outcome u x r y) x := by
    intro e u hpl
    rw [runs_read_bind]
    exact runs_guard_bind (fun _ => trivial) fun _ => loop_outcome hpl
  cases act with
  | getchar =>
    obtain rfl := Option.some.inj hu
    exact runs_of_ok (enter hl.2.1) he
  | putchar byte =>
    obtain rfl := Option.some.inj hu
    exact runs_of_ok (enter hl.2.1) he
  | call c => cases hu
  | resume =>
    change Thread.resume a x = _ at he
    unfold Thread.resume at he
    obtain ⟨p, x₁, hp, he⟩ := bind_eq_ok.1 he
    cases hp
    obtain ⟨w, x₂, hw, he⟩ := bind_eq_ok.1 he
    cases hw
    cases hp : x.place x.threads.cur with
    | outside => exact absurd hp hl
    | locking v =>
      have hv : u = v := by
        unfold QAct.use at hu
        simp only [hp] at hu
        exact (Option.some.inj hu).symm
      subst hv
      simp only [hp] at he
      obtain ⟨b, x₃, hb, he⟩ := bind_eq_ok.1 he
      have hkeep : x₃.ring = x.ring ∧ x₃.place = x.place := by
        have hrun : runs (fun _ => True) (scheduler Thread.goOn) (fun _ y => y.ring = x.ring ∧ y.place = x.place) x := by
          refine runs_on ?_
          unfold runs
          split
          · exact ⟨rfl, rfl⟩
          · trivial
        have hk := runs_of_ok hrun hb
        exact hk
      have hz := runs_of_ok (taken_slept (p := x.threads.cur) (by rw [hkeep.2, hp]; simp)) he
      exact .slept hz.1 (hz.2.1.trans hkeep.1) hz.2.2
    | waiting v =>
      have hv : u = v := by
        unfold QAct.use at hu
        simp only [hp] at hu
        exact (Option.some.inj hu).symm
      subst hv
      simp only [hp] at he
      obtain ⟨_, x₃, hb, he⟩ := bind_eq_ok.1 he
      obtain ⟨_, x₄, hset, he⟩ := bind_eq_ok.1 he
      cases hset
      have hring := runs_of_ok unlock_keeps hb
      have hcur := (runs_of_ok (h.unlock hp) hb).1
      have hout := runs_of_ok (loop_outcome (update_self ..)) he
      have hblocks : Queue.blocks { x₃ with place := update x₃.place x₃.threads.cur .outside } u ↔ x.blocks u := by
        cases u with
        | getchar =>
          change x₃.ring.head = x₃.ring.tail ↔ _
          rw [hring]
          rfl
        | putchar byte =>
          change Fs.nextPos x₃.ring.head = x₃.ring.tail ↔ _
          rw [hring]
          rfl
      cases hout with
      | slept hr hring' hplace =>
        refine .slept hr (hring'.trans hring) ?_
        rw [← hcur]
        exact hplace
      | done hnb hr hring' hplace =>
        refine .done (fun hb => hnb (hblocks.2 hb)) ?_ ?_ ?_
        · rw [← hring]
          exact hr
        · rw [← hring]
          exact hring'
        · rw [← hcur]
          exact hplace

/-! ## Runs -/

variable {puts gets : List UInt8} {q : Ioqueue}

theorem ringOf_put (q : Ioqueue) (byte : UInt8) :
    Fs.ringOf (Use.effect (.putchar byte) q) = (Fs.ringOf q).push 64 byte := by
  have hbuf : update q.buf q.head byte = fun i => if i = q.head then byte else q.buf i := by
    funext i
    by_cases hi : i = q.head
    · rw [hi, update_self, if_pos rfl]
    · rw [update_of_ne hi, if_neg hi]
  unfold Fs.ringOf Use.effect
  simp only [hbuf]
  rfl

/-- The functions' answers follow from the ring. -/
theorem IsFifo.of_ring (horder : puts = gets ++ Fs.ringBytes x.ring) (hok : (Fs.ringOf x.ring).Ok 64) :
    IsFifo puts gets x where
  order := horder
  head := hok.head
  tail := hok.tail
  capacity := by
    have hlt := RingBuf.used_lt hok
    rw [Fs.length_ringBytes]
    exact Nat.lt_succ_iff.1 hlt
  length := (Fs.length_ringBytes x.ring).symm
  full hi := by
    have hfull : (Fs.ringBytes x.ring).length = 63 ↔ Fs.nextPos x.ring.head = x.ring.tail := by
      rw [Fs.length_ringBytes]
      exact Nat.succ_inj.symm.trans (RingBuf.used_full hok)
    have htest : ioqFull x = .ok (decide (Fs.nextPos x.ring.head = x.ring.tail), x) := by
      unfold ioqFull
      rw [bind_ok (read_run _ _), bind_ok (guard_run hi _ x)]
      rfl
    rw [htest, decide_eq_decide.2 hfull]
  empty hi := by
    have hempty : (Fs.ringBytes x.ring).length = 0 ↔ x.ring.head = x.ring.tail := by
      rw [Fs.length_ringBytes]
      exact RingBuf.used_eq_zero hok
    have htest : ioqEmpty x = .ok (decide (x.ring.head = x.ring.tail), x) := by
      unfold ioqEmpty
      rw [bind_ok (read_run _ _), bind_ok (guard_run hi _ x)]
      rfl
    rw [htest, decide_eq_decide.2 hempty]

theorem IsFifo.ring (h : IsFifo puts gets x) : (Fs.ringOf x.ring).Ok 64 := ⟨h.head, h.tail⟩

/-- A call that returns takes out the oldest byte, or adds the newest. -/
theorem IsFifo.outcome (h : IsFifo puts gets x) (ho : Outcome u x r y) :
    IsFifo (puts ++ if y.place x.threads.cur = .outside then u.bytes else []) (gets ++ r.toList) y := by
  cases ho with
  | slept hr hring hplace =>
    rw [if_neg hplace, hr, Option.toList_none, List.append_nil, List.append_nil]
    exact IsFifo.of_ring (hring ▸ h.order) (hring ▸ h.ring)
  | done hb hr hring hplace =>
    rw [if_pos hplace, hr]
    cases u with
    | getchar =>
      have hne : (Fs.ringOf x.ring).head ≠ (Fs.ringOf x.ring).tail := hb
      refine IsFifo.of_ring ?_ ?_
      · rw [hring]
        show puts ++ [] = gets ++ [x.ring.buf x.ring.tail] ++ ((Fs.ringOf x.ring).pop 64).contents 64
        rw [List.append_nil, List.append_assoc, List.singleton_append, h.order]
        exact congrArg (gets ++ ·) (RingBuf.contents_pop h.ring hne)
      · rw [hring]
        exact RingBuf.Ok.pop h.ring
    | putchar byte =>
      have hroom : (Fs.ringOf x.ring).used 64 + 1 < 64 := by
        have hlt := RingBuf.used_lt h.ring
        have hnot : ¬ (Fs.ringOf x.ring).used 64 + 1 = 64 := fun hf => hb ((RingBuf.used_full h.ring).1 hf)
        omega
      refine IsFifo.of_ring ?_ ?_
      · unfold Fs.ringBytes Fs.bufsize
        rw [hring, ringOf_put, RingBuf.contents_push h.ring hroom]
        show puts ++ [byte] = gets ++ [] ++ _
        rw [List.append_nil, ← List.append_assoc, h.order]
        rfl
      · rw [hring, ringOf_put]
        exact RingBuf.Ok.push h.ring byte

/-- A call outside the queue leaves the ring alone and returns no byte of it. -/
theorem call_keeps {c : Call} (he : (QAct.call c).cmd a x = .ok (r, y)) : r = none ∧ y.ring = x.ring := by
  have hrun : runs (fun _ => True) ((QAct.call c).cmd a) (fun r y => r = none ∧ y.ring = x.ring) x := by
    refine runs_seq (P := fun _ y => y.ring = x.ring) (runs_on ?_) fun _ z hz => ⟨rfl, hz⟩
    unfold runs
    split
    · rfl
    · trivial
  have hk := runs_of_ok hrun he
  exact hk

/-- What every step keeps. -/
theorem IsFifo.step_act (h : IsFifo puts gets x) (hq : QueueOk a x) (hl : act.Legal a x) (he : act.cmd a x = .ok (r, y)) :
    IsFifo (puts ++ act.stored x y) (gets ++ r.toList) y := by
  cases hu : act.use x with
  | none =>
    have hkeep : r = none ∧ y.ring = x.ring := by
      cases act with
      | getchar => cases hu
      | putchar byte => cases hu
      | call c => exact call_keeps he
      | resume =>
        have hpl : x.place x.threads.cur ≠ .outside := hl
        unfold QAct.use at hu
        cases hp : x.place x.threads.cur with
        | outside => exact absurd hp hpl
        | locking v =>
          simp only [hp] at hu
          cases hu
        | waiting v =>
          simp only [hp] at hu
          cases hu
    have hst : act.stored x y = [] := by
      unfold QAct.stored
      simp [hu]
    rw [hst, hkeep.1, Option.toList_none, List.append_nil, List.append_nil]
    exact IsFifo.of_ring (hkeep.2 ▸ h.order) (hkeep.2 ▸ h.ring)
  | some u =>
    have hst : act.stored x y = if y.place x.threads.cur = .outside then u.bytes else [] := by
      unfold QAct.stored
      rw [hu]
      cases u with
      | getchar => rfl
      | putchar byte => rfl
    rw [hst]
    exact h.outcome (hq.outcome hl hu he)

/-- **The queue.** In every run from `ioqueue_init` the bytes come out as they went in, and the ring is the rest. -/
theorem queue_fifo (a : Addr) (s : Threads) (l : List Event) (buf : Nat → UInt8) (puts gets : List UInt8) (x : Queue)
    (hs : Reachable s l) (hin : ∀ p old, s.at p ≠ some (.semaDown a.lock old)) (hc : s.sleepers a.consumer = none)
    (hp : s.sleepers a.producer = none) (h : QueueRun a (QAct.Legal a) (queueInit s a buf) puts gets x) :
    IsFifo puts gets x := by
  have hboth : QueueOk a x ∧ IsFifo puts gets x := by
    induction h with
    | start =>
      exact ⟨(queueInit_ok hs hin hc hp).1, IsFifo.of_ring rfl ⟨Nat.zero_lt_succ _, Nat.zero_lt_succ _⟩⟩
    | step _ hlegal he ih => exact ⟨(runs_of_ok (ih.1.act hlegal) he).1, ih.2.step_act ih.1 hlegal he⟩
  exact hboth.2

/-- Two bytes are put and one is taken. -/
theorem queue_fifo_three : ∃ x, QueueRun ⟨0, 0, 1, by decide⟩ (QAct.Legal ⟨0, 0, 1, by decide⟩)
    (queueInit (booted 0 1 2) ⟨0, 0, 1, by decide⟩ fun _ => 0) [97, 98] [97] x ∧ IsFifo [97, 98] [97] x := by
  let a : Addr := ⟨0, 0, 1, by decide⟩
  let x₀ := queueInit (booted 0 1 2) a fun _ => 0
  let x₁ : Queue := { x₀ with ring := Use.effect (.putchar 97) x₀.ring }
  let x₂ : Queue := { x₁ with ring := Use.effect (.putchar 98) x₁.ring }
  let x₃ : Queue := { x₂ with ring := Use.effect .getchar x₂.ring }
  have h₁ : QueueRun a (QAct.Legal a) x₀ [97] [] x₁ :=
    .step .start (show (QAct.putchar 97).Legal a x₀ by decide) (show (QAct.putchar 97).cmd a x₀ = .ok (none, x₁) from rfl)
  have h₂ : QueueRun a (QAct.Legal a) x₀ [97, 98] [] x₂ :=
    .step h₁ (show (QAct.putchar 98).Legal a x₁ by decide) (show (QAct.putchar 98).cmd a x₁ = .ok (none, x₂) from rfl)
  have h₃ : QueueRun a (QAct.Legal a) x₀ [97, 98] [97] x₃ :=
    .step h₂ (show QAct.getchar.Legal a x₂ by decide) (show QAct.getchar.cmd a x₂ = .ok (some 97, x₃) from rfl)
  exact ⟨x₃, h₃, queue_fifo a (booted 0 1 2) [] _ _ _ _ (booted_reachable (by decide) (by decide) (by decide))
    booted_not_inside rfl rfl h₃⟩

end

end Enix.Thread
