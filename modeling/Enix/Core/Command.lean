import Mathlib.Logic.Basic

/-!
# Commands of one processor

A command changes a state and returns, or stops for ever for a reason `ε`. It
is never interrupted. `runs E m P s` says that `m` from `s` returns in `P`, or
stops for a reason in `E`: with `fun _ => False` it always returns.

* `runs_bind`, `runs_mono`, `runs_guard`, `runs_ite`: one rule for each
  construct.
* `Cmd.on`: a command on a part of a larger state; `runs_on` is its rule.
* `Steps`: commands one after the other, each of which meets a condition when
  it starts; `Steps.invariant` is the induction over them.
* `Keeps`: a command that leaves a part of the state alone; one rule for each
  construct.
* `Cmd.logged`: a command that leaves an event on a log;
  `Steps.invariant_logged` is the induction over a run with a log.
-/
set_option autoImplicit false

namespace Enix.Core

/-- A command over the state `σ`. -/
abbrev Cmd (σ ε α : Type) := StateT σ (Except ε) α

variable {σ ε α β : Type}

namespace Cmd

/-- Stop for ever. -/
def stop (e : ε) : Cmd σ ε α := fun _ => .error e

/-- Read the state. -/
def read (f : σ → α) : Cmd σ ε α := fun s => .ok (f s, s)

/-- Change the state. -/
def change (f : σ → σ) : Cmd σ ε Unit := fun s => .ok ((), f s)

/-- Go on only if `c` holds, stop for the reason `e` otherwise. -/
def guard (c : Prop) [Decidable c] (e : ε) : Cmd σ ε Unit := if c then pure () else stop e

/-- Do `m` if `c` holds. -/
def when (c : Prop) [Decidable c] (m : Cmd σ ε Unit) : Cmd σ ε Unit := if c then m else pure ()

/-- The value, if there is one. -/
def get (o : Option α) (e : ε) : Cmd σ ε α :=
  match o with
  | some a => pure a
  | none => stop e

/-- The command on a part of the state. -/
def on {τ : Type} (part : τ → σ) (put : τ → σ → τ) (m : Cmd σ ε α) : Cmd τ ε α := fun x =>
  match m (part x) with
  | .ok (a, s) => .ok (a, put x s)
  | .error e => .error e

end Cmd

/-- From `s`, `m` returns in `P` or stops for a reason in `E`. -/
def runs (E : ε → Prop) (m : Cmd σ ε α) (P : α → σ → Prop) (s : σ) : Prop :=
  match m s with
  | .ok (a, s') => P a s'
  | .error e => E e

section Rules
variable {E E' : ε → Prop} {m : Cmd σ ε α} {P P' : α → σ → Prop} {s s' : σ} {a : α}

theorem bind_run (m : Cmd σ ε α) (f : α → Cmd σ ε β) (s : σ) :
    (m >>= f) s = match m s with
      | .ok (a, s') => f a s'
      | .error e => .error e := by
  change StateT.bind m f s = _
  unfold StateT.bind
  cases m s with
  | ok r => rfl
  | error e => rfl

theorem bind_ok {f : α → Cmd σ ε β} (h : m s = .ok (a, s')) : (m >>= f) s = f a s' := by
  rw [bind_run, h]

theorem bind_error {f : α → Cmd σ ε β} {e : ε} (h : m s = .error e) : (m >>= f) s = .error e := by
  rw [bind_run, h]

/-- A sequence that returns has gone through its first half. -/
theorem bind_eq_ok {f : α → Cmd σ ε β} {r : β × σ} :
    (m >>= f) s = .ok r ↔ ∃ a s', m s = .ok (a, s') ∧ f a s' = .ok r := by
  rw [bind_run]
  constructor
  · intro h
    split at h
    · rename_i a s' he
      exact ⟨a, s', he, h⟩
    · cases h
  · rintro ⟨a, s', he, hf⟩
    rw [he]
    exact hf

@[simp] theorem pure_run (a : α) (s : σ) : (pure a : Cmd σ ε α) s = .ok (a, s) := rfl
@[simp] theorem stop_run (e : ε) (s : σ) : (Cmd.stop e : Cmd σ ε α) s = .error e := rfl
@[simp] theorem read_run (f : σ → α) (s : σ) : (Cmd.read f : Cmd σ ε α) s = .ok (f s, s) := rfl
@[simp] theorem change_run (f : σ → σ) (s : σ) : (Cmd.change f : Cmd σ ε Unit) s = .ok ((), f s) := rfl

theorem guard_run {c : Prop} [Decidable c] (h : c) (e : ε) (s : σ) :
    (Cmd.guard c e : Cmd σ ε Unit) s = .ok ((), s) := by
  unfold Cmd.guard
  rw [if_pos h]
  rfl

theorem guard_stop {c : Prop} [Decidable c] (h : ¬ c) (e : ε) (s : σ) :
    (Cmd.guard c e : Cmd σ ε Unit) s = .error e := by
  unfold Cmd.guard
  rw [if_neg h]
  rfl

@[simp] theorem get_some (a : α) (e : ε) : (Cmd.get (some a) e : Cmd σ ε α) = pure a := rfl
@[simp] theorem get_none (e : ε) : (Cmd.get none e : Cmd σ ε α) = Cmd.stop e := rfl

theorem runs_mono (h : runs E m P s) (hE : ∀ e, E e → E' e) (hP : ∀ a s', P a s' → P' a s') :
    runs E' m P' s := by
  unfold runs at h ⊢
  split
  · rename_i a s' he
    rw [he] at h
    exact hP _ _ h
  · rename_i e he
    rw [he] at h
    exact hE _ h

theorem runs_post (h : runs E m P s) (hP : ∀ a s', P a s' → P' a s') : runs E m P' s :=
  runs_mono h (fun _ he => he) hP

theorem runs_bind {f : α → Cmd σ ε β} {Q : β → σ → Prop} :
    runs E (m >>= f) Q s ↔ runs E m (fun a s' => runs E (f a) Q s') s := by
  unfold runs
  rw [bind_run]
  cases m s with
  | ok r => rfl
  | error e => rfl

/-- The rule for a sequence whose first half has a specification. -/
theorem runs_seq {f : α → Cmd σ ε β} {Q : β → σ → Prop} (h : runs E m P s)
    (hf : ∀ a s', P a s' → runs E (f a) Q s') : runs E (m >>= f) Q s :=
  runs_bind.2 (runs_post h hf)

theorem runs_ok (h : m s = .ok (a, s')) : runs E m P s ↔ P a s' := by
  unfold runs
  rw [h]

theorem runs_bind_ok {f : α → Cmd σ ε β} {Q : β → σ → Prop} (h : m s = .ok (a, s')) :
    runs E (m >>= f) Q s ↔ runs E (f a) Q s' := by
  rw [runs_bind, runs_ok h]

@[simp] theorem runs_pure : runs E (pure a : Cmd σ ε α) P s ↔ P a s := Iff.rfl
@[simp] theorem runs_stop {e : ε} : runs E (Cmd.stop e : Cmd σ ε α) P s ↔ E e := Iff.rfl
@[simp] theorem runs_read {f : σ → α} : runs E (Cmd.read f : Cmd σ ε α) P s ↔ P (f s) s := Iff.rfl
@[simp] theorem runs_change {f : σ → σ} {Q : Unit → σ → Prop} :
    runs E (Cmd.change f : Cmd σ ε Unit) Q s ↔ Q () (f s) := Iff.rfl

@[simp] theorem runs_read_bind {g : σ → β} {f : β → Cmd σ ε α} :
    runs E (Cmd.read g >>= f) P s ↔ runs E (f (g s)) P s := runs_bind

@[simp] theorem runs_change_bind {g : σ → σ} {f : Unit → Cmd σ ε α} :
    runs E (Cmd.change g >>= f) P s ↔ runs E (f ()) P (g s) := runs_bind

@[simp] theorem runs_pure_bind {b : β} {f : β → Cmd σ ε α} :
    runs E (pure b >>= f) P s ↔ runs E (f b) P s := runs_bind

/-- A guard either holds or its reason is allowed. -/
theorem runs_guard {c : Prop} [Decidable c] {e : ε} {Q : Unit → σ → Prop} (hE : ¬ c → E e)
    (hQ : c → Q () s) : runs E (Cmd.guard c e : Cmd σ ε Unit) Q s := by
  unfold Cmd.guard
  split
  · rename_i hc
    exact hQ hc
  · rename_i hc
    exact hE hc

theorem runs_guard_bind {c : Prop} [Decidable c] {e : ε} {f : Unit → Cmd σ ε α} (hE : ¬ c → E e)
    (hf : c → runs E (f ()) P s) : runs E (Cmd.guard c e >>= f) P s :=
  runs_bind.2 (runs_guard hE hf)

theorem runs_ite {c : Prop} [Decidable c] {m₁ m₂ : Cmd σ ε α} (h₁ : c → runs E m₁ P s)
    (h₂ : ¬ c → runs E m₂ P s) : runs E (if c then m₁ else m₂) P s := by
  split
  · rename_i hc
    exact h₁ hc
  · rename_i hc
    exact h₂ hc

/-- A choice before the rest of a sequence. -/
theorem runs_ite_seq {c : Prop} [Decidable c] {m₁ m₂ : Cmd σ ε α} {f : α → Cmd σ ε β}
    {Q : β → σ → Prop} (h : runs E (if c then m₁ else m₂) P s) (hf : ∀ a s', P a s' → runs E (f a) Q s') :
    runs E (if c then m₁ >>= f else m₂ >>= f) Q s := by
  by_cases hc : c
  · rw [if_pos hc] at h ⊢
    exact runs_seq h hf
  · rw [if_neg hc] at h ⊢
    exact runs_seq h hf

theorem runs_when {c : Prop} [Decidable c] {m : Cmd σ ε Unit} {Q : Unit → σ → Prop}
    (h₁ : c → runs E m Q s) (h₂ : ¬ c → Q () s) : runs E (Cmd.when c m) Q s :=
  runs_ite h₁ h₂

theorem on_run {τ : Type} {part : τ → σ} {put : τ → σ → τ} {x : τ} (h : m (part x) = .ok (a, s')) :
    Cmd.on part put m x = .ok (a, put x s') := by
  unfold Cmd.on
  rw [h]

/-- What a command does to a part of the state. -/
theorem runs_on {τ : Type} {part : τ → σ} {put : τ → σ → τ} {Q : α → τ → Prop} {x : τ}
    (h : runs E m (fun a s' => Q a (put x s')) (part x)) : runs E (Cmd.on part put m) Q x := by
  unfold runs at h
  split at h
  · rename_i a s' he
    rw [runs_ok (on_run he)]
    exact h
  · rename_i e he
    unfold runs Cmd.on
    rw [he]
    exact h

theorem runs_of_ok (h : runs E m P s) (he : m s = .ok (a, s')) : P a s' := by
  unfold runs at h
  rw [he] at h
  exact h

theorem runs_of_error {e : ε} (h : runs E m P s) (he : m s = .error e) : E e := by
  unfold runs at h
  rw [he] at h
  exact h

/-- A command that has no reason to stop returns. -/
theorem returns_of_runs (h : runs (fun _ => False) m P s) : ∃ a s', m s = .ok (a, s') ∧ P a s' := by
  unfold runs at h
  split at h
  · rename_i a s' he
    exact ⟨a, s', he, h⟩
  · exact h.elim

/-- What two specifications say of a command. -/
theorem runs_both (h : runs E m P s) (h' : runs E' m P' s) :
    runs (fun e => E e ∧ E' e) m (fun a s' => P a s' ∧ P' a s') s := by
  unfold runs at *
  split
  · rename_i a s' he
    rw [he] at h h'
    exact ⟨h, h'⟩
  · rename_i e he
    rw [he] at h h'
    exact ⟨h, h'⟩

end Rules

/-! ## What a command leaves alone -/

/-- Wherever `m` returns, `f` of the state is what it was. -/
def Keeps {γ : Type} (f : σ → γ) (m : Cmd σ ε α) : Prop := ∀ s a s', m s = .ok (a, s') → f s' = f s

section Keeps
variable {γ : Type} {f : σ → γ} {m : Cmd σ ε α}

theorem Keeps.pure (a : α) : Keeps f (pure a : Cmd σ ε α) := by
  intro s b s' h
  cases h
  rfl

theorem Keeps.stop (e : ε) : Keeps f (Cmd.stop e : Cmd σ ε α) := by
  intro s b s' h
  cases h

theorem Keeps.read (g : σ → α) : Keeps f (Cmd.read g : Cmd σ ε α) := by
  intro s b s' h
  cases h
  rfl

theorem Keeps.change {g : σ → σ} (hg : ∀ s, f (g s) = f s) : Keeps f (Cmd.change g : Cmd σ ε Unit) := by
  intro s b s' h
  cases h
  exact hg s

theorem Keeps.bind {k : α → Cmd σ ε β} (hm : Keeps f m) (hk : ∀ a, Keeps f (k a)) : Keeps f (m >>= k) := by
  intro s b s' h
  obtain ⟨a, s₁, h₁, h₂⟩ := bind_eq_ok.1 h
  rw [hk a s₁ b s' h₂, hm s a s₁ h₁]

theorem Keeps.guard (c : Prop) [Decidable c] (e : ε) : Keeps f (Cmd.guard c e : Cmd σ ε Unit) := by
  unfold Cmd.guard
  split
  · exact .pure ()
  · exact .stop e

theorem Keeps.get (o : Option α) (e : ε) : Keeps f (Cmd.get o e : Cmd σ ε α) := by
  cases o with
  | none => exact .stop e
  | some a => exact .pure a

theorem Keeps.ite {c : Prop} [Decidable c] {m₁ m₂ : Cmd σ ε α} (h₁ : Keeps f m₁) (h₂ : Keeps f m₂) :
    Keeps f (if c then m₁ else m₂) := by
  split
  · exact h₁
  · exact h₂

theorem Keeps.when {c : Prop} [Decidable c] {m : Cmd σ ε Unit} (h : Keeps f m) : Keeps f (Cmd.when c m) :=
  .ite h (.pure ())

end Keeps

/-! ## Sequences of commands -/

section Steps
variable {Op : Type}

/-- Commands made one after the other, each of which meets `C` when it starts. -/
inductive Steps (cmd : Op → Cmd σ ε α) (C : Op → σ → Prop) : List Op → σ → σ → Prop where
  | nil (s : σ) : Steps cmd C [] s s
  | cons {op : Op} {ops : List Op} {s s₁ s' : σ} {a : α} : C op s → cmd op s = .ok (a, s₁) →
    Steps cmd C ops s₁ s' → Steps cmd C (op :: ops) s s'

variable {cmd : Op → Cmd σ ε α} {C C' : Op → σ → Prop} {ops ops' : List Op} {s s₁ s' : σ}

/-- What every command keeps, a sequence keeps. -/
theorem Steps.invariant {I : σ → Prop} (h : Steps cmd C ops s s')
    (hstep : ∀ op s a s₁, I s → C op s → cmd op s = .ok (a, s₁) → I s₁) (hI : I s) : I s' := by
  induction h with
  | nil => exact hI
  | cons hc he _ ih => exact ih (hstep _ _ _ _ hI hc he)

theorem Steps.append (h : Steps cmd C ops s s₁) (h' : Steps cmd C ops' s₁ s') :
    Steps cmd C (ops ++ ops') s s' := by
  induction h with
  | nil => exact h'
  | cons hc he _ ih => exact .cons hc he (ih h')

theorem Steps.mono_nil (h : Steps cmd C [] s s') : Steps cmd C' [] s s' := by
  cases h
  exact .nil _

theorem Steps.mono (h : Steps cmd C ops s s') (hC : ∀ op s, C op s → C' op s) :
    Steps cmd C' ops s s' := by
  induction h with
  | nil => exact .nil _
  | cons hc he _ ih => exact .cons (hC _ _ hc) he ih

/-- Do `ops`, each of which must be `legal`. -/
def Cmd.follow (cmd : Op → Cmd σ ε α) (legal : Op → σ → Bool) : List Op → σ → Option σ
  | [], s => some s
  | op :: ops, s =>
    match legal op s, cmd op s with
    | true, .ok (_, s') => Cmd.follow cmd legal ops s'
    | _, _ => none

theorem follow_steps {legal : Op → σ → Bool} (hlegal : ∀ op s, legal op s = true → C op s)
    (h : Cmd.follow cmd legal ops s = some s') : Steps cmd C ops s s' := by
  induction ops generalizing s with
  | nil =>
    cases h
    exact .nil _
  | cons op ops ih =>
    unfold Cmd.follow at h
    split at h
    · rename_i a s₁ hop he
      exact .cons (hlegal op s hop) he (ih h)
    · cases h

end Steps

/-! ## Events -/

section Logged
variable {Ev : Type}

/-- The command, with the event that it returns put on a log, newest first. -/
def Cmd.logged (m : Cmd σ ε (Option Ev)) : Cmd (σ × List Ev) ε Unit := fun x =>
  match m x.1 with
  | .ok (ev, s') => .ok ((), s', ev.toList ++ x.2)
  | .error e => .error e

theorem logged_eq_ok {m : Cmd σ ε (Option Ev)} {s s' : σ} {l l' : List Ev} :
    Cmd.logged m (s, l) = .ok ((), s', l') ↔ ∃ ev, m s = .ok (ev, s') ∧ l' = ev.toList ++ l := by
  unfold Cmd.logged
  cases hm : m s with
  | error e => simp
  | ok r =>
    obtain ⟨ev, s₁⟩ := r
    simp only [Except.ok.injEq, Prod.mk.injEq, true_and]
    constructor
    · rintro ⟨rfl, rfl⟩
      exact ⟨ev, ⟨rfl, rfl⟩, rfl⟩
    · rintro ⟨ev', ⟨rfl, rfl⟩, rfl⟩
      exact ⟨rfl, rfl⟩

/-- A run with a log keeps what every command keeps of the state and the log. -/
theorem Steps.invariant_logged {Op : Type} {cmd : Op → Cmd σ ε (Option Ev)} {C : Op → σ → Prop} {ops : List Op}
    {x y : σ × List Ev} {I : σ → List Ev → Prop}
    (h : Steps (fun op => Cmd.logged (cmd op)) (fun op x => C op x.1) ops x y)
    (hstep : ∀ op s l ev s', I s l → C op s → cmd op s = .ok (ev, s') → I s' (ev.toList ++ l)) (hI : I x.1 x.2) :
    I y.1 y.2 := by
  refine h.invariant (I := fun z => I z.1 z.2) (fun op z a w hz hc he => ?_) hI
  obtain ⟨s, l⟩ := z
  obtain ⟨s', l'⟩ := w
  obtain ⟨ev, hm, rfl⟩ := logged_eq_ok.1 he
  exact hstep op s l ev s' hz hc hm

end Logged

end Enix.Core
