import Enix.Core.Command
import Mathlib.Logic.Function.Basic

/-!
# Sections under mutual exclusion

A section is code that works on a shared resource in steps: `next x` is the first step of
`x`, which returns the code that is left or the result. Threads go through sections of
their own, and other things happen between two steps.

* `Shared.Ok.enter`, `Shared.Ok.advance`: as long as no two threads are inside at a time, the
  resource is what the finished sections make of it, one behind the other in the order in
  which they ended, and the steps of the one that is going on.
-/
set_option autoImplicit false

namespace Enix.Core
open Function

variable {ι σ ε κ ρ : Type}

/-- Some steps of `x`, from `s`: `y` is left. -/
inductive Reaches (next : κ → Cmd σ ε (κ ⊕ ρ)) (x : κ) (s : σ) : κ → σ → Prop where
  | refl : Reaches next x s x s
  | step {y z : κ} {s₁ s' : σ} : Reaches next x s y s₁ → next y s₁ = .ok (.inl z, s') → Reaches next x s z s'

/-- All steps of `x`, from `s`: the result is `r`. -/
def Ends (next : κ → Cmd σ ε (κ ⊕ ρ)) (x : κ) (s : σ) (r : ρ) (s' : σ) : Prop :=
  ∃ y s₁, Reaches next x s y s₁ ∧ next y s₁ = .ok (.inr r, s')

/-- Sections alone, one behind the other. -/
inductive Serial (next : κ → Cmd σ ε (κ ⊕ ρ)) (s : σ) : List (ι × κ × ρ) → σ → Prop where
  | nil : Serial next s [] s
  | snoc {p : ι} {x : κ} {r : ρ} {l : List (ι × κ × ρ)} {s₁ s' : σ} : Serial next s l s₁ → Ends next x s₁ r s' →
    Serial next s (l ++ [(p, x, r)]) s'

/-- Commands that have other names. -/
theorem Steps.map {Op Op' α : Type} {cmd : Op → Cmd σ ε α} {C : Op → σ → Prop} {f : Op' → Op} {ops : List Op'} {s s' : σ}
    (h : Steps (fun op => cmd (f op)) (fun op => C (f op)) ops s s') : Steps cmd C (ops.map f) s s' := by
  induction h with
  | nil => exact .nil _
  | cons hc he _ ih => exact .cons hc he ih

/-- The resource; the section of each thread that is inside one, as it began and what is left
of it; and the sections that have ended, with their results. -/
structure Shared (ι σ κ ρ : Type) where
  res : σ
  sect : ι → Option (κ × κ)
  log : List (ι × κ × ρ)

namespace Shared

def enter [DecidableEq ι] (w : Shared ι σ κ ρ) (p : ι) (x : κ) : Shared ι σ κ ρ :=
  { w with sect := update w.sect p (some (x, x)) }

/-- Thread `p` has taken the first step of what was left. -/
def advanced [DecidableEq ι] (w : Shared ι σ κ ρ) (p : ι) (x : κ) (s : σ) : κ ⊕ ρ → Shared ι σ κ ρ
  | .inl z => { w with res := s, sect := update w.sect p (some (x, z)) }
  | .inr r => { res := s, sect := update w.sect p none, log := w.log ++ [(p, x, r)] }

/-- Nobody but `p` is inside. -/
def Only (w : Shared ι σ κ ρ) (p : ι) : Prop := ∀ q, q ≠ p → w.sect q = none

/-- The resource is what the finished sections have left, and the steps of those that go on. -/
def Ok (next : κ → Cmd σ ε (κ ⊕ ρ)) (s : σ) (w : Shared ι σ κ ρ) : Prop :=
  ∃ s₁, Serial next s w.log s₁ ∧ (∀ p x y, w.sect p = some (x, y) → Reaches next x s₁ y w.res) ∧
    ((∀ p, w.sect p = none) → w.res = s₁)

variable {next : κ → Cmd σ ε (κ ⊕ ρ)} {s s' : σ} {w : Shared ι σ κ ρ} {p q : ι} {x y z : κ} {r : ρ} {out : κ ⊕ ρ}

theorem Ok.init (next : κ → Cmd σ ε (κ ⊕ ρ)) (s : σ) : Ok next s (⟨s, fun _ => none, []⟩ : Shared ι σ κ ρ) := by
  refine ⟨s, .nil, fun p a b hp => ?_, fun _ => rfl⟩
  cases hp

variable [DecidableEq ι]

@[simp] theorem enter_sect_self (w : Shared ι σ κ ρ) (p : ι) (x : κ) : (w.enter p x).sect p = some (x, x) := update_self ..

theorem enter_sect_ne (h : q ≠ p) : (w.enter p x).sect q = w.sect q := update_of_ne h ..

@[simp] theorem advanced_inl_sect_self (w : Shared ι σ κ ρ) (p : ι) (x z : κ) (s : σ) :
    (w.advanced p x s (.inl z)).sect p = some (x, z) := update_self ..

@[simp] theorem advanced_inr_sect_self (w : Shared ι σ κ ρ) (p : ι) (x : κ) (s : σ) (r : ρ) :
    (w.advanced p x s (.inr r)).sect p = none := update_self ..

theorem advanced_sect_ne (h : q ≠ p) : (w.advanced p x s out).sect q = w.sect q := by
  cases out with
  | inl z => exact update_of_ne h ..
  | inr r => exact update_of_ne h ..

/-- A section begins when there is no other. -/
theorem Ok.enter (h : Ok next s w) (hnone : ∀ q, w.sect q = none) (p : ι) (x : κ) : Ok next s (w.enter p x) := by
  obtain ⟨s₁, hlog, -, hres⟩ := h
  refine ⟨s₁, hlog, fun q a b hq => ?_, fun hq => ?_⟩
  · by_cases hqp : q = p
    · subst hqp
      rw [enter_sect_self] at hq
      cases hq
      change Reaches next x s₁ x w.res
      rw [hres hnone]
      exact .refl
    · rw [enter_sect_ne hqp, hnone q] at hq
      cases hq
  · have hp := hq p
    rw [enter_sect_self] at hp
    cases hp

/-- A step of the only section. -/
theorem Ok.advance (h : Ok next s w) (honly : w.Only p) (hp : w.sect p = some (x, y)) (he : next y w.res = .ok (out, s')) :
    Ok next s (w.advanced p x s' out) := by
  obtain ⟨s₁, hlog, hreach, -⟩ := h
  have hxy := hreach p x y hp
  cases out with
  | inl z =>
    refine ⟨s₁, hlog, fun q a b hq => ?_, fun hq => ?_⟩
    · by_cases hqp : q = p
      · subst hqp
        rw [advanced_inl_sect_self] at hq
        cases hq
        exact .step hxy he
      · rw [advanced_sect_ne hqp, honly q hqp] at hq
        cases hq
    · have hz := hq p
      rw [advanced_inl_sect_self] at hz
      cases hz
  | inr r =>
    refine ⟨s', .snoc hlog ⟨y, w.res, hxy, he⟩, fun q a b hq => ?_, fun _ => rfl⟩
    by_cases hqp : q = p
    · subst hqp
      rw [advanced_inr_sect_self] at hq
      cases hq
    · rw [advanced_sect_ne hqp, honly q hqp] at hq
      cases hq

end Shared

end Enix.Core
