import Enix.Device.Screen
import Enix.Thread.Guarded

/-!
# The console (`device/console.c`)

Threads print on one screen. Each of the console's functions takes the console's lock, and
prints its characters one by one; ticks, interrupts and other threads come between any two
of them.

* `console_serial`: in every run the screen shows the texts of the calls that have printed, whole
  and one behind the other, and then the beginning of at most one more.
-/
set_option autoImplicit false

namespace Enix.Device
open Enix.Core Enix.Lib Enix.Thread Enix.Thread.Guarded Function

/-- What is left of a call of `put_char`, `put_str` or `put_int`; `num` is in the loop of the last. -/
inductive Printing where
  | char (c : UInt8)
  | str (bytes : List UInt8)
  | num (buf : Bytes) (n edi : Nat) (cl : UInt8)

/-- mirrors src/lib/print.S:199-212 -/
def PrintCall.start : PrintCall → Printing
  | char c => .char c
  | str l => .str l
  | int v =>
    let buf := hexDigits 8 v.toNat zeros
    let edi := skipPrefix0 buf 8 0
    .num buf 8 edi (if edi = 8 then 0x30 else buf edi)

namespace Printing

/-- The next character. mirrors src/lib/print.S:23-32, 41, 213-220 -/
def next : Printing → Print (Printing ⊕ Unit)
  | char c => do
    putChar c
    pure (.inr ())
  | str [] => pure (.inr ())
  | str (cl :: rest) => if cl = 0 then pure (.inr ()) else do
    putChar cl
    pure (.inl (str rest))
  | num _ 0 _ _ => pure (.inr ())
  | num buf (n + 1) edi cl => do
    putChar cl
    pure (if edi + 1 < 8 then .inl (num buf n (edi + 1) (buf (edi + 1))) else .inr ())

/-- The characters to come. -/
def text : Printing → List UInt8
  | char c => [c]
  | str l => l.takeWhile (· ≠ 0)
  | num buf n edi cl => eachNum buf n edi cl

end Printing

/-- mirrors src/device/console.c:22-43 (`console_put_str`, `console_put_char`, `console_put_int`) -/
def consolePut (call : PrintCall) : List (Op Printing) := [.acquire, .body call.start, .release]

abbrev Console := Guarded Printing (Shared Nat Screen Printing Unit)

/-- A thread calls one of the console's functions, or goes on in it; or the scheduler does something. -/
inductive ConsoleTurn where
  | put (call : PrintCall)
  | go
  | sched (c : Call)

def ConsoleTurn.turn : ConsoleTurn → Turn Printing
  | put call => .call (consolePut call)
  | go => .go
  | sched c => .sched c

/-- `k` is the semaphore of `console_lock`. -/
def ConsoleTurn.cmd (k : Nat) (t : ConsoleTurn) : Cmd Console (Stop ⊕ Gp) Unit := t.turn.cmd k (Guarded.step Printing.next)

def ConsoleTurn.Legal (k : Nat) (t : ConsoleTurn) (w : Console) : Prop := t.turn.Legal k w

instance (k : Nat) (t : ConsoleTurn) (w : Console) : Decidable (t.Legal k w) := inferInstanceAs (Decidable (t.turn.Legal k w))

section
variable {s s' : Screen} {p : Paper} {x y z : Printing} {k : Nat} {w : Console}

theorem start_text (call : PrintCall) : call.start.text = call.text := by
  cases call with
  | char c => rfl
  | str l => rfl
  | int v => exact eachNum_numeral v

/-- The next step prints a character of the text, if it does not stop. -/
theorem next_text (h : Displays s p) {out : Printing ⊕ Unit} (he : x.next s = .ok (out, s')) :
    ∃ l p', x.text = l ++ (match out with | .inl z => z.text | .inr _ => []) ∧ p.write l = some p' ∧ Displays s' p' := by
  -- what printing a character leaves
  have hput : ∀ {c : UInt8} {o : Printing ⊕ Unit}, (putChar c >>= fun _ => pure o) s = .ok (out, s') →
      o = out ∧ ∃ p', p.write [c] = some p' ∧ Displays s' p' := by
    intro c o hrun
    obtain ⟨u, s₁, hc, hpure⟩ := bind_eq_ok.1 hrun
    cases hpure
    have hpaper := putChar_paper h c
    cases hp : p.put c with
    | none =>
      rw [hp, hc] at hpaper
      cases hpaper
    | some p' =>
      rw [hp] at hpaper
      obtain ⟨s₂, hok, hshow⟩ := hpaper
      rw [hc] at hok
      cases hok
      refine ⟨rfl, p', ?_, hshow⟩
      unfold Paper.write
      rw [hp]
      rfl
  cases x with
  | char c =>
    obtain ⟨rfl, p', hp, hs'⟩ := hput he
    exact ⟨[c], p', rfl, hp, hs'⟩
  | str l =>
    cases l with
    | nil =>
      cases he
      exact ⟨[], p, rfl, rfl, h⟩
    | cons cl rest =>
      change (if cl = 0 then (pure (.inr ()) : Print (Printing ⊕ Unit)) else do
        putChar cl
        pure (.inl (.str rest))) s = _ at he
      by_cases hcl : cl = 0
      · rw [if_pos hcl] at he
        cases he
        refine ⟨[], p, ?_, rfl, h⟩
        change (cl :: rest).takeWhile (· ≠ 0) = _
        rw [List.takeWhile_cons_of_neg (by simpa using hcl)]
        rfl
      · rw [if_neg hcl] at he
        obtain ⟨rfl, p', hp, hs'⟩ := hput he
        refine ⟨[cl], p', ?_, hp, hs'⟩
        change (cl :: rest).takeWhile (· ≠ 0) = _
        rw [List.takeWhile_cons_of_pos (by simpa using hcl)]
        rfl
  | num buf n edi cl =>
    cases n with
    | zero =>
      cases he
      exact ⟨[], p, rfl, rfl, h⟩
    | succ n =>
      obtain ⟨rfl, p', hp, hs'⟩ := hput he
      refine ⟨[cl], p', ?_, hp, hs'⟩
      change (cl :: if edi + 1 < 8 then eachNum buf n (edi + 1) (buf (edi + 1)) else []) = _
      by_cases hedi : edi + 1 < 8
      · rw [if_pos hedi, if_pos hedi]
        rfl
      · rw [if_neg hedi, if_neg hedi]
        rfl

/-- Some of a call's characters. -/
theorem reaches_text (h : Displays s p) (hr : Reaches Printing.next x s y s') :
    ∃ l p', x.text = l ++ y.text ∧ p.write l = some p' ∧ Displays s' p' := by
  induction hr with
  | refl => exact ⟨[], p, rfl, rfl, h⟩
  | step _ he ih =>
    obtain ⟨l, p₁, hx, hp₁, h₁⟩ := ih
    obtain ⟨l', p', hy, hp', h'⟩ := next_text h₁ he
    refine ⟨l ++ l', p', ?_, ?_, h'⟩
    · rw [hx, hy, List.append_assoc]
    · rw [Paper.write_append, hp₁]
      exact hp'

/-- All of a call's characters. -/
theorem ends_text (h : Displays s p) (hr : Ends Printing.next x s () s') : ∃ p', p.write x.text = some p' ∧ Displays s' p' := by
  obtain ⟨y, s₁, hreach, he⟩ := hr
  obtain ⟨l, p₁, hx, hp₁, h₁⟩ := reaches_text h hreach
  obtain ⟨l', p', hy, hp', h'⟩ := next_text h₁ he
  refine ⟨p', ?_, h'⟩
  rw [hx, hy, Paper.write_append, hp₁, List.append_nil]
  exact hp'

theorem serial_text {l : List (Nat × Printing × Unit)} (h : Displays s p) (hr : Serial Printing.next s l s') :
    ∃ p', p.write (l.flatMap fun e => e.2.1.text) = some p' ∧ Displays s' p' := by
  induction hr with
  | nil => exact ⟨p, rfl, h⟩
  | snoc _ he ih =>
    obtain ⟨p₁, hp₁, h₁⟩ := ih
    obtain ⟨p', hp', h'⟩ := ends_text h₁ he
    refine ⟨p', ?_, h'⟩
    rw [List.flatMap_append, Paper.write_append, hp₁, List.flatMap_singleton]
    exact hp'

theorem console_made {t : ConsoleTurn} {w' : Console} (he : t.cmd k w = .ok ((), w'))
    (hw : ∀ e ∈ w.made, ∃ call : PrintCall, e.2 = call.start) : ∀ e ∈ w'.made, ∃ call : PrintCall, e.2 = call.start := by
  cases t with
  | put call =>
    cases he
    intro e hmem
    rcases List.mem_append.1 hmem with hmem | hmem
    · exact hw e hmem
    · obtain ⟨x, hx, rfl⟩ := List.mem_map.1 hmem
      have hstart : call.start = x := by simpa [consolePut, Op.body?] using hx
      exact ⟨call, hstart.symm⟩
  | go =>
    have hm : w'.made = w.made := go_made (step_made Printing.next) _ _ _ he
    rw [hm]
    exact hw
  | sched c =>
    have hm : w'.made = w.made := onLock_made _ _ _ _ he
    rw [hm]
    exact hw

/-- Whatever the threads do, the screen shows the texts of the calls that have printed, whole and one
behind the other, and behind them the first characters of the one call that is going on, if there is one.
Each thread's calls print in the order in which it made them, none twice; those that have not yet are left. -/
theorem console_serial {threads : Threads} {l : List Event} (hs : Reachable threads l)
    (hin : ∀ q old, threads.at q ≠ some (.semaDown k old)) (h0 : Displays s p) {ts : List ConsoleTurn}
    (h : Steps (ConsoleTurn.cmd k) (ConsoleTurn.Legal k) ts (opened threads k s) w) :
    (∃ out p', p.write ((w.rest.log.flatMap fun e => e.2.1.text) ++ out) = some p' ∧ Displays w.rest.res p' ∧
      (∀ q x y, w.rest.sect q = some (x, y) → x.text = out ++ y.text ∧ ∀ q', w.rest.sect q' ≠ none → q' = q) ∧
      ((∀ q, w.rest.sect q = none) → out = [])) ∧
    (∀ q, w.asked q = (w.rest.log.filter (·.1 = q)).map (·.2.1) ++ w.left q) ∧
    ∀ e ∈ w.made, ∃ call : PrintCall, e.2 = call.start ∧ e.2.text = call.text := by
  have hw : Serves Printing.next k s w := served hs hin (Steps.map (f := ConsoleTurn.turn) h)
  have hmade : ∀ e ∈ w.made, ∃ call : PrintCall, e.2 = call.start :=
    h.invariant (I := fun w => ∀ e ∈ w.made, ∃ call : PrintCall, e.2 = call.start)
      (fun _ _ _ _ hI _ he => console_made he hI) nofun
  have honly : ∀ q x y, w.rest.sect q = some (x, y) → ∀ q', w.rest.sect q' ≠ none → q' = q := fun q x y hq q' hq' => by
    cases hs' : w.rest.sect q' with
    | none => exact absurd hs' hq'
    | some r => exact hw.inside_unique (hw.sect q x y hq) (hw.sect q' r.1 r.2 hs')
  refine ⟨?_, hw.asked, fun e he => ?_⟩
  · obtain ⟨s₁, hserial, hreach, hnone⟩ := hw.shared
    obtain ⟨p₁, hp₁, h₁⟩ := serial_text h0 hserial
    by_cases hall : ∀ q, w.rest.sect q = none
    · rw [hnone hall]
      refine ⟨[], p₁, ?_, h₁, fun q x y hq => ?_, fun _ => rfl⟩
      · rw [List.append_nil]
        exact hp₁
      · rw [hall q] at hq
        cases hq
    · obtain ⟨q, hq⟩ := not_forall.1 hall
      obtain ⟨r, hr⟩ := Option.ne_none_iff_exists'.1 hq
      obtain ⟨x, y⟩ := r
      obtain ⟨out, p', htext, hp', h'⟩ := reaches_text h₁ (hreach q x y hr)
      refine ⟨out, p', ?_, h', fun q' x' y' hq' => ?_, fun hno => absurd hno hall⟩
      · rw [Paper.write_append, hp₁]
        exact hp'
      · have hqq : q' = q := honly q x y hr q' (by rw [hq']; simp)
        rw [hqq, hr] at hq'
        cases hq'
        exact ⟨htext, hqq ▸ honly q x y hr⟩
  · obtain ⟨call, hc⟩ := hmade e he
    exact ⟨call, hc, by rw [hc, start_text]⟩

/-- A clear screen. -/
def clearScreen : Screen := ⟨fun o => if o % 2 = 0 then 0x20 else 0x07, 0, fun _ => 0⟩

theorem clearScreen_displays : Displays clearScreen .blank := by
  refine ⟨fun i _ => ?_, fun i _ => ?_, rfl, rfl, ⟨Nat.le_refl 0, by decide⟩, fun _ _ => rfl⟩
  · exact if_pos (by omega)
  · exact if_neg (by omega)

/-- Main has printed a character, and init waits for the console. -/
theorem console_serial_two : ∃ w : Console, (∀ q, w.asked q = (w.rest.log.filter (·.1 = q)).map (·.2.1) ++ w.left q) ∧
    w.rest.log.map (fun e => (e.1, e.2.1.text)) = [(0, [65])] ∧ (w.left 1).map Printing.text = [[66]] := by
  have hrun : (Cmd.follow (ConsoleTurn.cmd 0) (fun t w => decide (t.Legal 0 w)) [.put (.char 65), .go, .go, .go, .go, .go, .go,
      .sched .threadYield, .put (.char 66), .go, .go, .sched .idle, .go] (opened (booted 0 1 2) 0 clearScreen)).map (fun w =>
        (w.rest.log.map (fun e => (e.1, e.2.1.text)), (w.left 1).map Printing.text)) = some ([(0, [65])], [[66]]) := by
    rfl
  obtain ⟨w, hw, hout⟩ := Option.map_eq_some_iff.1 hrun
  have hsteps := follow_steps (C := ConsoleTurn.Legal 0) (fun _ _ hl => of_decide_eq_true hl) hw
  have hserial := console_serial (booted_reachable (by decide) (by decide) (by decide)) booted_not_inside clearScreen_displays hsteps
  exact ⟨w, hserial.2.1, (Prod.mk.inj hout).1, (Prod.mk.inj hout).2⟩

end

end Enix.Device
