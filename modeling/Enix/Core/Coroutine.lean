import Mathlib.Logic.Basic

/-!
# Cooperative coroutines over a shared memory and a device

A thread of a cooperative kernel runs without interruption from one device
request to the next. `Res σ Q R α` is what such a thread does from a memory
`σ`: it ends (`done`), it stops for ever (`halt`), or it issues a device
request and hands over a continuation that is run on the memory it finds
when the answer arrives (`req`). The request is a function of the memory
because the device reads it when the transfer starts, not when the thread
asks for it. `Prog` is the monad of such threads.

* `exec` runs a program alone: every request is answered at once.
* `exec_bind`, `exec_bind_ok`: execution is compositional; with
  `exec_readM`, `exec_modifyM`, `exec_perform`, `exec_assert` a program is
  executed symbolically.
* `wp`: preconditions of lone runs, total or partial.
* `Guar G`: every stretch of a thread between two requests is in `G`,
  whatever the rest of the system did in between; `exec_guar` transfers it
  to lone runs.
* `Asks A`: a thread makes only requests in `A`; `exec_asks` says what they
  keep of the device.
* `exec_congr`: a run cannot tell devices apart that answer alike.
* `Calls`: programs run alone, one after the other; `Calls.invariant` is the
  induction over them.
-/
set_option autoImplicit false

namespace Enix.Core

/-- Why a thread never comes back. -/
inductive Halt where
  | panic | ub | hang
  deriving DecidableEq, Repr

inductive Res (σ Q R α : Type) where
  | done (a : α) (s : σ)
  | halt (h : Halt)
  | req (s : σ) (q : σ → Q) (k : R → σ → Res σ Q R α)

variable {σ Q R D α β γ : Type}

def Res.bind : Res σ Q R α → (α → σ → Res σ Q R β) → Res σ Q R β
  | .done a s, f => f a s
  | .halt h, _ => .halt h
  | .req s q k, f => .req s q fun r s' => (k r s').bind f

/-- A program: what it does from each memory. -/
def Prog (σ Q R α : Type) := σ → Res σ Q R α

instance : Monad (Prog σ Q R) where
  pure a := fun s => .done a s
  bind m f := fun s => (m s).bind f

theorem Res.bind_done (x : Res σ Q R α) : x.bind .done = x := by
  induction x with
  | done | halt => rfl
  | req s q k ih => simp only [Res.bind, ih]

theorem Res.bind_assoc (x : Res σ Q R α) (f : α → σ → Res σ Q R β) (g : β → σ → Res σ Q R γ) :
    (x.bind f).bind g = x.bind fun a s => (f a s).bind g := by
  induction x with
  | done | halt => rfl
  | req s q k ih => simp only [Res.bind, ih]

instance : LawfulMonad (Prog σ Q R) := LawfulMonad.mk' _
  (fun m => funext fun s => Res.bind_done (m s))
  (fun _ _ => rfl)
  (fun m _ _ => funext fun s => Res.bind_assoc (m s) _ _)

/-- Stop for ever. -/
def stop (h : Halt) : Prog σ Q R α := fun _ => .halt h

/-- Read the memory. -/
def readM (f : σ → α) : Prog σ Q R α := fun s => .done (f s) s

/-- Change the memory. -/
def modifyM (f : σ → σ) : Prog σ Q R Unit := fun s => .done () (f s)

/-- Issue a device request and wait for its answer. -/
def perform (q : σ → Q) : Prog σ Q R R := fun s => .req s q .done

/-- Go on only if `c` holds. -/
def assert (c : Prop) [Decidable c] : Prog σ Q R Unit := if c then pure () else stop .panic

/-! ## Running alone -/

/-- Every request is answered at once by `dev`. -/
def Res.run (dev : Q → D → R × D) : Res σ Q R α → D → Except Halt (α × σ × D)
  | .done a s, d => .ok (a, s, d)
  | .halt h, _ => .error h
  | .req s q k, d => (k (dev (q s) d).1 s).run dev (dev (q s) d).2

def exec (dev : Q → D → R × D) (m : Prog σ Q R α) (s : σ) (d : D) : Except Halt (α × σ × D) :=
  (m s).run dev d

section Exec
variable (dev : Q → D → R × D) {m : Prog σ Q R α} {s s' : σ} {d d' : D} {a : α}

theorem Res.run_bind (x : Res σ Q R α) (f : α → σ → Res σ Q R β) (d : D) :
    (x.bind f).run dev d =
      match x.run dev d with
      | .ok (a, s', d') => (f a s').run dev d'
      | .error h => .error h := by
  induction x generalizing d with
  | done | halt => rfl
  | req s q k ih => simp only [Res.bind, Res.run]; exact ih _ _ _

@[simp] theorem exec_pure (a : α) : exec dev (pure a : Prog σ Q R α) s d = .ok (a, s, d) := rfl

theorem exec_bind (m : Prog σ Q R α) (f : α → Prog σ Q R β) (s : σ) (d : D) :
    exec dev (m >>= f) s d =
      match exec dev m s d with
      | .ok (a, s', d') => exec dev (f a) s' d'
      | .error h => .error h := Res.run_bind dev (m s) f d

/-- Symbolic execution: the first half is known to end in `(a, s', d')`. -/
theorem exec_bind_ok {f : α → Prog σ Q R β} (h : exec dev m s d = .ok (a, s', d')) :
    exec dev (m >>= f) s d = exec dev (f a) s' d' := by rw [exec_bind, h]

theorem exec_bind_error {f : α → Prog σ Q R β} {e : Halt} (h : exec dev m s d = .error e) :
    exec dev (m >>= f) s d = .error e := by rw [exec_bind, h]

/-- A run of `m >>= f` that ends goes through an end of `m`. -/
theorem exec_bind_eq_ok {f : α → Prog σ Q R β} {r : β × σ × D} :
    exec dev (m >>= f) s d = .ok r ↔
      ∃ a s' d', exec dev m s d = .ok (a, s', d') ∧ exec dev (f a) s' d' = .ok r := by
  rw [exec_bind]
  constructor
  · intro h
    split at h
    · rename_i a s' d' he; exact ⟨a, s', d', he, h⟩
    · cases h
  · rintro ⟨a, s', d', he, hf⟩; rw [he]; exact hf

@[simp] theorem exec_stop (h : Halt) : exec dev (stop h : Prog σ Q R α) s d = .error h := rfl

@[simp] theorem exec_readM (f : σ → α) : exec dev (readM f) s d = .ok (f s, s, d) := rfl

@[simp] theorem exec_modifyM (f : σ → σ) : exec dev (modifyM f) s d = .ok ((), f s, d) := rfl

@[simp] theorem exec_perform (q : σ → Q) :
    exec dev (perform q) s d = .ok ((dev (q s) d).1, s, (dev (q s) d).2) := rfl

theorem exec_assert {c : Prop} [Decidable c] (h : c) :
    exec dev (assert c : Prog σ Q R Unit) s d = .ok ((), s, d) := by
  unfold assert; rw [if_pos h]; rfl

theorem exec_assert_eq_ok {c : Prop} [Decidable c] {r : Unit × σ × D}
    (h : exec dev (assert c : Prog σ Q R Unit) s d = .ok r) : c ∧ r = ((), s, d) := by
  unfold assert at h
  split at h
  · rename_i hc; cases h; exact ⟨hc, rfl⟩
  · cases h

/-! The forms in which a `do` block presents its first step. -/

@[simp] theorem exec_pure_bind (f : α → Prog σ Q R β) :
    exec dev (pure a >>= f) s d = exec dev (f a) s d := rfl

@[simp] theorem exec_readM_bind (g : σ → α) (f : α → Prog σ Q R β) :
    exec dev (readM g >>= f) s d = exec dev (f (g s)) s d := rfl

@[simp] theorem exec_modifyM_bind (g : σ → σ) (f : Unit → Prog σ Q R β) :
    exec dev (modifyM g >>= f) s d = exec dev (f ()) (g s) d := rfl

@[simp] theorem exec_perform_bind (q : σ → Q) (f : R → Prog σ Q R β) :
    exec dev (perform q >>= f) s d = exec dev (f (dev (q s) d).1) s (dev (q s) d).2 := rfl

@[simp] theorem exec_stop_bind (h : Halt) (f : α → Prog σ Q R β) :
    exec dev ((stop h : Prog σ Q R α) >>= f) s d = .error h := rfl

theorem exec_assert_bind {c : Prop} [Decidable c] (h : c) (f : Unit → Prog σ Q R β) :
    exec dev (assert c >>= f) s d = exec dev (f ()) s d := exec_bind_ok dev (exec_assert dev h)

end Exec

/-! ## Preconditions -/

/-- A lone run of `m` ends in `Q`, or halts in a way `E` allows: with
`fun _ => False` a total postcondition, with `fun _ => True` a partial one. -/
def wp (dev : Q → D → R × D) (E : Halt → Prop) (m : Prog σ Q R α) (P : α → σ → D → Prop) (s : σ)
    (d : D) : Prop :=
  match exec dev m s d with
  | .ok (a, s', d') => P a s' d'
  | .error h => E h

section Wp
variable {dev : Q → D → R × D} {E : Halt → Prop} {m : Prog σ Q R α} {s s' : σ} {d d' : D} {a : α}

theorem wp_mono {P P' : α → σ → D → Prop} (h : wp dev E m P s d)
    (hP : ∀ a s' d', P a s' d' → P' a s' d') : wp dev E m P' s d := by
  unfold wp at h ⊢
  split
  · rename_i a s' d' he; rw [he] at h; exact hP _ _ _ h
  · rename_i e he; rw [he] at h; exact h

theorem wp_bind {f : α → Prog σ Q R β} {P : β → σ → D → Prop} :
    wp dev E (m >>= f) P s d ↔ wp dev E m (fun a s' d' => wp dev E (f a) P s' d') s d := by
  unfold wp
  rw [exec_bind]
  cases exec dev m s d <;> rfl

/-- A run that is known is executed. -/
theorem wp_ok {P : α → σ → D → Prop} (h : exec dev m s d = .ok (a, s', d')) :
    wp dev E m P s d ↔ P a s' d' := by unfold wp; rw [h]

theorem wp_bind_ok {f : α → Prog σ Q R β} {P : β → σ → D → Prop}
    (h : exec dev m s d = .ok (a, s', d')) : wp dev E (m >>= f) P s d ↔ wp dev E (f a) P s' d' := by
  rw [wp_bind, wp_ok h]

@[simp] theorem wp_pure {P : α → σ → D → Prop} : wp dev E (pure a) P s d ↔ P a s d := Iff.rfl

@[simp] theorem wp_stop {h : Halt} {P : α → σ → D → Prop} : wp dev E (stop h) P s d ↔ E h := Iff.rfl

@[simp] theorem wp_readM {f : σ → α} {P : α → σ → D → Prop} :
    wp dev E (readM f) P s d ↔ P (f s) s d := Iff.rfl

@[simp] theorem wp_modifyM {f : σ → σ} {P : Unit → σ → D → Prop} :
    wp dev E (modifyM f) P s d ↔ P () (f s) d := Iff.rfl

@[simp] theorem wp_perform {q : σ → Q} {P : R → σ → D → Prop} :
    wp dev E (perform q) P s d ↔ P (dev (q s) d).1 s (dev (q s) d).2 := Iff.rfl

theorem wp_assert {c : Prop} [Decidable c] {P : Unit → σ → D → Prop} :
    wp dev E (assert c) P s d ↔ if c then P () s d else E .panic := by
  unfold assert
  split <;> exact Iff.rfl

/-- A partial run may take an assertion for granted. -/
theorem wp_assert_weak {c : Prop} [Decidable c] {P : Unit → σ → D → Prop} (h : c → P () s d) :
    wp dev (fun _ => True) (assert c) P s d := by
  rw [wp_assert]; split
  · rename_i hc; exact h hc
  · trivial

theorem wp_assert_total {c : Prop} [Decidable c] {P : Unit → σ → D → Prop} (hc : c) (h : P () s d) :
    wp dev E (assert c) P s d := by rw [wp_assert, if_pos hc]; exact h

theorem wp_ite {c : Prop} [Decidable c] {m₁ m₂ : Prog σ Q R α} {P : α → σ → D → Prop}
    (h₁ : c → wp dev E m₁ P s d) (h₂ : ¬ c → wp dev E m₂ P s d) :
    wp dev E (if c then m₁ else m₂) P s d := by
  split
  · rename_i hc; exact h₁ hc
  · rename_i hc; exact h₂ hc

/-- A partial run that ends is in the postcondition. -/
theorem wp_exec {P : α → σ → D → Prop} (h : wp dev E m P s d)
    (he : exec dev m s d = .ok (a, s', d')) : P a s' d' := by
  unfold wp at h; rw [he] at h; exact h

end Wp

/-- A lone run of which something is observed ends. -/
theorem exec_of_observed {σ Q R D α β : Type} {dev : Q → D → R × D} {m : Prog σ Q R α} {s : σ} {d : D}
    {f : α × σ × D → β} {b : β} (h : (exec dev m s d).toOption.map f = some b) :
    ∃ a s' d', exec dev m s d = .ok (a, s', d') ∧ f (a, s', d') = b := by
  cases he : exec dev m s d with
  | error e =>
    rw [he] at h
    cases h
  | ok r =>
    rw [he] at h
    exact ⟨r.1, r.2.1, r.2.2, rfl, Option.some.inj h⟩

/-! ## Stretches between requests -/

/-- Every stretch between two requests, the first one from `b`, is in `G`. -/
def Res.Guar (G : σ → σ → Prop) (b : σ) : Res σ Q R α → Prop
  | .done _ s => G b s
  | .halt _ => True
  | .req s _ k => G b s ∧ ∀ r s', (k r s').Guar G s'

def Guar (G : σ → σ → Prop) (m : Prog σ Q R α) : Prop := ∀ s, (m s).Guar G s

section Guar
variable {G : σ → σ → Prop} {m : Prog σ Q R α}

theorem Res.Guar.weaken (htr : ∀ a b c, G a b → G b c → G a c) {b b' : σ} (hb : G b b')
    {x : Res σ Q R α} (h : x.Guar G b') : x.Guar G b := by
  cases x with
  | done a s => exact htr _ _ _ hb h
  | halt => trivial
  | req s q k => exact ⟨htr _ _ _ hb h.1, h.2⟩

theorem Res.Guar.bind (htr : ∀ a b c, G a b → G b c → G a c) {x : Res σ Q R α}
    {f : α → σ → Res σ Q R β} (hf : ∀ a s, (f a s).Guar G s) :
    ∀ {b : σ}, x.Guar G b → (x.bind f).Guar G b := by
  induction x with
  | done a s => intro b h; exact Res.Guar.weaken htr h (hf a s)
  | halt => intro b _; trivial
  | req s q k ih => intro b h; exact ⟨h.1, fun r s' => ih r s' (h.2 r s')⟩

theorem Guar.bind (htr : ∀ a b c, G a b → G b c → G a c) (hm : Guar G m)
    {f : α → Prog σ Q R β} (hf : ∀ a, Guar G (f a)) : Guar G (m >>= f) :=
  fun s => Res.Guar.bind htr (fun a s => hf a s) (hm s)

theorem Res.Guar.mono {G' : σ → σ → Prop} (hG : ∀ a b, G a b → G' a b) {x : Res σ Q R α} :
    ∀ {b : σ}, x.Guar G b → x.Guar G' b := by
  induction x with
  | done a s => intro b h; exact hG b s h
  | halt => intro b _; trivial
  | req s q k ih => intro b h; exact ⟨hG b s h.1, fun r s' => ih r s' (h.2 r s')⟩

/-- What guarantees more guarantees less. -/
theorem Guar.mono {G' : σ → σ → Prop} (hG : ∀ a b, G a b → G' a b) (hm : Guar G m) : Guar G' m :=
  fun s => Res.Guar.mono hG (hm s)

theorem Guar.pure (hrf : ∀ s, G s s) (a : α) : Guar G (pure a : Prog σ Q R α) := fun s => hrf s

theorem Guar.readM (hrf : ∀ s, G s s) (f : σ → α) : Guar G (readM f : Prog σ Q R α) :=
  fun s => hrf s

theorem Guar.stop (h : Halt) : Guar G (stop h : Prog σ Q R α) := fun _ => trivial

theorem Guar.perform (hrf : ∀ s, G s s) (q : σ → Q) : Guar G (perform q : Prog σ Q R R) :=
  fun s => ⟨hrf s, fun _ s' => hrf s'⟩

theorem Guar.modifyM {f : σ → σ} (h : ∀ s, G s (f s)) : Guar G (modifyM f : Prog σ Q R Unit) :=
  fun s => h s

theorem Guar.assert (hrf : ∀ s, G s s) (c : Prop) [Decidable c] :
    Guar G (assert c : Prog σ Q R Unit) := by
  unfold Core.assert; split
  · exact Guar.pure hrf ()
  · exact Guar.stop _

theorem Guar.ite {c : Prop} [Decidable c] {m₁ m₂ : Prog σ Q R α} (h₁ : Guar G m₁) (h₂ : Guar G m₂) :
    Guar G (if c then m₁ else m₂) := by split <;> assumption

theorem Res.Guar.run (htr : ∀ a b c, G a b → G b c → G a c) (dev : Q → D → R × D)
    {x : Res σ Q R α} : ∀ {b : σ} {d d' : D} {a : α} {s' : σ}, x.Guar G b →
      x.run dev d = .ok (a, s', d') → G b s' := by
  induction x with
  | done a s => intro b d d' a' s' h he; cases he; exact h
  | halt => intro b d d' a s' _ he; cases he
  | req s q k ih => intro b d d' a s' h he; exact htr _ _ _ h.1 (ih _ _ (h.2 _ _) he)

/-- A lone run of a program that guarantees `G` is in `G`. -/
theorem exec_guar (htr : ∀ a b c, G a b → G b c → G a c) (dev : Q → D → R × D)
    (hm : Guar G m) {s s' : σ} {d d' : D} {a : α} (he : exec dev m s d = .ok (a, s', d')) :
    G s s' := Res.Guar.run htr dev (hm s) he

end Guar

/-! ## What a thread asks for -/

/-- Every request is one that `A` allows, whatever the answers are. -/
def Res.Asks (A : Q → Prop) : Res σ Q R α → Prop
  | .done _ _ => True
  | .halt _ => True
  | .req _ q k => (∀ s, A (q s)) ∧ ∀ r s, (k r s).Asks A

def Asks (A : Q → Prop) (m : Prog σ Q R α) : Prop := ∀ s, (m s).Asks A

section Asks
variable {A : Q → Prop} {m : Prog σ Q R α}

theorem Res.Asks.bind {x : Res σ Q R α} {f : α → σ → Res σ Q R β} (hf : ∀ a s, (f a s).Asks A) (h : x.Asks A) :
    (x.bind f).Asks A := by
  induction x with
  | done a s => exact hf a s
  | halt => trivial
  | req s q k ih => exact ⟨h.1, fun r s' => ih r s' (h.2 r s')⟩

theorem Asks.bind (hm : Asks A m) {f : α → Prog σ Q R β} (hf : ∀ a, Asks A (f a)) : Asks A (m >>= f) :=
  fun s => Res.Asks.bind (fun a s => hf a s) (hm s)

theorem Asks.pure (a : α) : Asks A (pure a : Prog σ Q R α) := fun _ => trivial

theorem Asks.readM (f : σ → α) : Asks A (readM f : Prog σ Q R α) := fun _ => trivial

theorem Asks.modifyM (f : σ → σ) : Asks A (modifyM f : Prog σ Q R Unit) := fun _ => trivial

theorem Asks.stop (h : Halt) : Asks A (stop h : Prog σ Q R α) := fun _ => trivial

theorem Asks.perform {q : σ → Q} (h : ∀ s, A (q s)) : Asks A (perform q : Prog σ Q R R) :=
  fun _ => ⟨h, fun _ _ => trivial⟩

theorem Asks.assert (c : Prop) [Decidable c] : Asks A (assert c : Prog σ Q R Unit) := by
  unfold Core.assert
  split
  · exact Asks.pure ()
  · exact Asks.stop _

theorem Asks.ite {c : Prop} [Decidable c] {m₁ m₂ : Prog σ Q R α} (h₁ : Asks A m₁) (h₂ : Asks A m₂) :
    Asks A (if c then m₁ else m₂) := by split <;> assumption

theorem Res.Asks.run {I : D → D → Prop} (hrf : ∀ d, I d d) (htr : ∀ a b c, I a b → I b c → I a c)
    (dev : Q → D → R × D) (hI : ∀ q d, A q → I d (dev q d).2) {x : Res σ Q R α} :
    ∀ {d d' : D} {a : α} {s : σ}, x.Asks A → x.run dev d = .ok (a, s, d') → I d d' := by
  induction x with
  | done a s => intro d d' a' s' _ he; cases he; exact hrf d
  | halt => intro d d' a s _ he; cases he
  | req s q k ih => intro d d' a s' h he; exact htr _ _ _ (hI _ _ (h.1 s)) (ih _ _ (h.2 _ _) he)

/-- What every request that is asked keeps of the device, a lone run keeps. -/
theorem exec_asks {I : D → D → Prop} (hrf : ∀ d, I d d) (htr : ∀ a b c, I a b → I b c → I a c)
    (dev : Q → D → R × D) (hI : ∀ q d, A q → I d (dev q d).2) (hm : Asks A m) {s s' : σ} {d d' : D} {a : α}
    (he : exec dev m s d = .ok (a, s', d')) : I d d' := Res.Asks.run hrf htr dev hI (hm s) he

end Asks

/-! ## The device alone -/

/-- What every answer keeps of the device, a run keeps. -/
theorem Res.run_device {I : D → D → Prop} (hrf : ∀ d, I d d) (htr : ∀ a b c, I a b → I b c → I a c)
    (dev : Q → D → R × D) (hI : ∀ q d, I d (dev q d).2) (x : Res σ Q R α) :
    ∀ {d d' : D} {a : α} {s : σ}, x.run dev d = .ok (a, s, d') → I d d' := by
  induction x with
  | done a s => intro d d' a' s' he; cases he; exact hrf d
  | halt => intro d d' a s he; cases he
  | req s q k ih => intro d d' a s' he; exact htr _ _ _ (hI (q s) d) (ih _ _ he)

/-! ## Devices that answer alike -/

/-! ## Sequences of calls -/

section Calls
variable {Op : Type}

/-- Calls made one after the other, each of which meets `C` when it starts. -/
inductive Calls (dev : Q → D → R × D) (prog : Op → Prog σ Q R α) (C : Op → σ → D → Prop) :
    List Op → σ → D → σ → D → Prop where
  | nil (s : σ) (d : D) : Calls dev prog C [] s d s d
  | cons {op : Op} {ops : List Op} {s s₁ s' : σ} {d d₁ d' : D} {a : α} : C op s d →
    exec dev (prog op) s d = .ok (a, s₁, d₁) → Calls dev prog C ops s₁ d₁ s' d' →
    Calls dev prog C (op :: ops) s d s' d'

variable {dev : Q → D → R × D} {prog : Op → Prog σ Q R α} {C C' : Op → σ → D → Prop} {ops : List Op}
  {s s' : σ} {d d' : D}

/-- What every call keeps, a sequence keeps. -/
theorem Calls.invariant {I : σ → D → Prop} (h : Calls dev prog C ops s d s' d')
    (hstep : ∀ op s d a s₁ d₁, I s d → C op s d → exec dev (prog op) s d = .ok (a, s₁, d₁) → I s₁ d₁)
    (hI : I s d) : I s' d' := by
  induction h with
  | nil => exact hI
  | cons hc he _ ih => exact ih (hstep _ _ _ _ _ _ hI hc he)

/-- What an invariant makes of the conditions. -/
theorem Calls.mono {I : σ → D → Prop} (h : Calls dev prog C ops s d s' d')
    (hC : ∀ op s d, I s d → C op s d → C' op s d)
    (hstep : ∀ op s d a s₁ d₁, I s d → C' op s d → exec dev (prog op) s d = .ok (a, s₁, d₁) → I s₁ d₁)
    (hI : I s d) : Calls dev prog C' ops s d s' d' := by
  induction h with
  | nil => exact .nil _ _
  | cons hc he _ ih =>
    have hc' := hC _ _ _ hI hc
    exact .cons hc' he (ih (hstep _ _ _ _ _ _ hI hc' he))

/-- The calls, executed as long as `c` holds. -/
def execCalls (dev : Q → D → R × D) (prog : Op → Prog σ Q R α) (c : Op → σ → D → Bool) :
    List Op → σ → D → Option (σ × D)
  | [], s, d => some (s, d)
  | op :: ops, s, d =>
    match c op s d, exec dev (prog op) s d with
    | true, .ok (_, s₁, d₁) => execCalls dev prog c ops s₁ d₁
    | _, _ => none

theorem calls_of_execCalls {c : Op → σ → D → Bool} (h : execCalls dev prog c ops s d = some (s', d')) :
    Calls dev prog (fun op s d => c op s d = true) ops s d s' d' := by
  induction ops generalizing s d with
  | nil => cases h; exact .nil _ _
  | cons op ops ih =>
    unfold execCalls at h
    split at h
    · rename_i hc he; exact .cons hc he (ih h)
    · cases h

/-- A run of which something is observed exists. -/
theorem calls_of_observed {β : Type} {c : Op → σ → D → Bool} {f : σ × D → β} {b : β}
    (h : (execCalls dev prog c ops s d).map f = some b) :
    ∃ s' d', Calls dev prog (fun op s d => c op s d = true) ops s d s' d' ∧ f (s', d') = b := by
  cases he : execCalls dev prog c ops s d with
  | none => rw [he] at h; cases h
  | some r =>
    rw [he] at h
    exact ⟨r.1, r.2, calls_of_execCalls he, Option.some.inj h⟩

end Calls

end Enix.Core
