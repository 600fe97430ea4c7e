import Enix.Core.Command

/-!
# Commands from two states

`Mirrors R m s t`: if the command `m` returns from `s`, it returns from `t` with the
same result, and the two states are in `R` afterwards. What `R` leaves open has no
influence on such a command.

* `Mirrors.bind`, `Mirrors.readBind`, `Mirrors.change`, ...: one rule for each construct.
-/
set_option autoImplicit false

namespace Enix.Core

variable {σ ε α β : Type}

/-- What `m` does from `s` it does from `t`, and the two states end in `R`. -/
def Mirrors (R : σ → σ → Prop) (m : Cmd σ ε α) (s t : σ) : Prop :=
  ∀ a s', m s = .ok (a, s') → ∃ t', m t = .ok (a, t') ∧ R s' t'

section
variable {R : σ → σ → Prop} {m : Cmd σ ε α} {f : α → Cmd σ ε β} {s t : σ}

theorem Mirrors.pure (h : R s t) (a : α) : Mirrors R (pure a : Cmd σ ε α) s t := by
  rintro b s' he
  cases he
  exact ⟨t, rfl, h⟩

theorem Mirrors.change {g : σ → σ} (h : R (g s) (g t)) : Mirrors R (Cmd.change g : Cmd σ ε Unit) s t := by
  rintro b s' he
  cases he
  exact ⟨g t, rfl, h⟩

theorem Mirrors.bind (hm : Mirrors R m s t)
    (hf : ∀ a s' t', m s = .ok (a, s') → R s' t' → Mirrors R (f a) s' t') : Mirrors R (m >>= f) s t := by
  intro b s'' he
  obtain ⟨a, s', hs, hfs⟩ := bind_eq_ok.1 he
  obtain ⟨t', ht, hR⟩ := hm a s' hs
  obtain ⟨t'', hft, hR'⟩ := hf a s' t' hs hR b s'' hfs
  exact ⟨t'', by rw [bind_ok ht, hft], hR'⟩

/-- Both states give the command the same value. -/
theorem Mirrors.readBind {g : σ → α} (hg : g t = g s) (hf : Mirrors R (f (g s)) s t) :
    Mirrors R (Cmd.read g >>= f) s t := by
  intro b s' he
  rw [bind_ok (read_run g s)] at he
  obtain ⟨t', ht, hR⟩ := hf b s' he
  exact ⟨t', by rw [bind_ok (read_run g t), hg, ht], hR⟩

theorem Mirrors.changeBind {g : σ → σ} {f : Unit → Cmd σ ε β} (hf : Mirrors R (f ()) (g s) (g t)) :
    Mirrors R (Cmd.change g >>= f) s t := by
  intro b s' he
  rw [bind_ok (change_run g s)] at he
  obtain ⟨t', ht, hR⟩ := hf b s' he
  exact ⟨t', by rw [bind_ok (change_run g t), ht], hR⟩

theorem Mirrors.guardBind {c : Prop} [Decidable c] {e : ε} {f : Unit → Cmd σ ε β} (hf : c → Mirrors R (f ()) s t) :
    Mirrors R (Cmd.guard c e >>= f) s t := by
  by_cases hc : c
  · intro b s' he
    rw [bind_ok (guard_run hc e s)] at he
    obtain ⟨t', ht, hR⟩ := hf hc b s' he
    exact ⟨t', by rw [bind_ok (guard_run hc e t), ht], hR⟩
  · intro b s' he
    rw [bind_error (guard_stop hc e s)] at he
    cases he

theorem Mirrors.getBind {o : Option α} {e : ε} (hf : ∀ a, o = some a → Mirrors R (f a) s t) :
    Mirrors R (Cmd.get o e >>= f) s t := by
  cases o with
  | some a => exact hf a rfl
  | none =>
    intro b s' he
    cases he

theorem Mirrors.ite {c : Prop} [Decidable c] {m₁ m₂ : Cmd σ ε α} (h₁ : c → Mirrors R m₁ s t)
    (h₂ : ¬ c → Mirrors R m₂ s t) : Mirrors R (if c then m₁ else m₂) s t := by
  by_cases hc : c
  · rw [if_pos hc]
    exact h₁ hc
  · rw [if_neg hc]
    exact h₂ hc

end

end Enix.Core
