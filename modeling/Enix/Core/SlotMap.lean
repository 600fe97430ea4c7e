import Mathlib.Logic.Function.Basic

/-!
# Maps in slots

A map is kept as pairs of a key and a value, each in a slot of its own. The slots are
in no order, any of them may be empty, and no key is in two.

* `InSlots.put`: a free slot takes a key that the map does not have.
* `InSlots.clear`: a slot is emptied, and the map is without its key.
-/
set_option autoImplicit false

namespace Enix.Core
open Function

/-- The slots hold the pairs of the map `m`. -/
structure InSlots {ι κ ν : Type} (slots : ι → Option (κ × ν)) (m : κ → Option ν) : Prop where
  mem : ∀ k v, m k = some v ↔ ∃ a, slots a = some (k, v)
  once : ∀ a b k v w, slots a = some (k, v) → slots b = some (k, w) → a = b

section
variable {ι κ ν : Type} {slots : ι → Option (κ × ν)} {m : κ → Option ν} {a : ι} {k : κ} {v : ν}

theorem InSlots.get (h : InSlots slots m) (ha : slots a = some (k, v)) : m k = some v := (h.mem k v).2 ⟨a, ha⟩

theorem InSlots.not_mem (h : InSlots slots m) (hk : m k = none) : slots a ≠ some (k, v) := fun ha => by
  rw [h.get ha] at hk
  cases hk

theorem InSlots.put [DecidableEq ι] [DecidableEq κ] (h : InSlots slots m) (ha : slots a = none) (hk : m k = none) :
    InSlots (update slots a (some (k, v))) (update m k (some v)) where
  mem k' v' := by
    by_cases hk' : k' = k
    · subst hk'
      rw [update_self]
      constructor
      · intro hv
        obtain rfl := Option.some.inj hv
        exact ⟨a, update_self ..⟩
      · rintro ⟨b, hb⟩
        by_cases hba : b = a
        · rw [hba, update_self] at hb
          cases hb
          rfl
        · rw [update_of_ne hba] at hb
          exact absurd hb (h.not_mem hk)
    · rw [update_of_ne hk', h.mem]
      constructor
      · rintro ⟨b, hb⟩
        refine ⟨b, ?_⟩
        rw [update_of_ne, hb]
        rintro rfl
        rw [ha] at hb
        cases hb
      · rintro ⟨b, hb⟩
        by_cases hba : b = a
        · rw [hba, update_self] at hb
          cases hb
          exact absurd rfl hk'
        · rw [update_of_ne hba] at hb
          exact ⟨b, hb⟩
  once b c k' v' w hb hc := by
    by_cases hba : b = a
    · subst hba
      rw [update_self] at hb
      cases hb
      by_cases hca : c = b
      · exact hca.symm
      · rw [update_of_ne hca] at hc
        exact absurd hc (h.not_mem hk)
    · rw [update_of_ne hba] at hb
      by_cases hca : c = a
      · subst hca
        rw [update_self] at hc
        cases hc
        exact absurd hb (h.not_mem hk)
      · rw [update_of_ne hca] at hc
        exact h.once b c k' v' w hb hc

theorem InSlots.clear [DecidableEq ι] [DecidableEq κ] (h : InSlots slots m) (ha : slots a = some (k, v)) :
    InSlots (update slots a none) (update m k none) where
  mem k' v' := by
    by_cases hk' : k' = k
    · subst hk'
      rw [update_self]
      refine ⟨fun hv => absurd hv.symm (Option.some_ne_none _), ?_⟩
      rintro ⟨b, hb⟩
      by_cases hba : b = a
      · rw [hba, update_self] at hb
        cases hb
      · rw [update_of_ne hba] at hb
        exact absurd (h.once b a _ _ _ hb ha) hba
    · rw [update_of_ne hk', h.mem]
      constructor
      · rintro ⟨b, hb⟩
        refine ⟨b, ?_⟩
        rw [update_of_ne, hb]
        rintro rfl
        rw [ha] at hb
        cases hb
        exact hk' rfl
      · rintro ⟨b, hb⟩
        by_cases hba : b = a
        · rw [hba, update_self] at hb
          cases hb
        · rw [update_of_ne hba] at hb
          exact ⟨b, hb⟩
  once b c k' v' w hb hc := by
    by_cases hba : b = a
    · rw [hba, update_self] at hb
      cases hb
    · by_cases hca : c = a
      · rw [hca, update_self] at hc
        cases hc
      · rw [update_of_ne hba] at hb
        rw [update_of_ne hca] at hc
        exact h.once b c k' v' w hb hc

end

end Enix.Core
