import Mathlib.Data.Set.Card
import Mathlib.Data.Set.Finite.Lattice

/-!
# Reference counts

Slots `ι` hold references to objects `φ`: `ref i = some f` says that slot `i`
refers to `f`. `refCount ref f` is the number of slots that do.

A counter per object follows the references with a delay: code counts a
reference before it stores it, or clears it before it stores the new count.
`Balanced D ref cnt due` says that on the objects of `D` the counter is the
number of references plus what is due: positive for a reference that is
counted but not stored yet, negative for one that is stored but not counted.

* `refCount_attach`, `refCount_detach`, `refCount_drop`: one slot is filled or
  emptied, or all slots of a set.
* `Balanced.attach`, `Balanced.detach`, `Balanced.count`: the same for the
  books; `paid`, `Balanced.drop`: many references are counted off, then dropped.
* `refCount_le`: where the slots of one object are told apart by a key, there
  are no more of them than keys.
-/
set_option autoImplicit false

namespace Enix.Core
open Function

variable {ι φ κ : Type} {ref ref' : ι → Option φ} {i j : ι} {f g : φ}

/-- The number of references to `f`. -/
noncomputable def refCount (ref : ι → Option φ) (f : φ) : Nat := Set.ncard {i | ref i = some f}

/-- Only finitely many slots are in use. -/
def FinRefs (ref : ι → Option φ) : Prop := Set.Finite {i | ref i ≠ none}

theorem FinRefs.to (h : FinRefs ref) (f : φ) : Set.Finite {i | ref i = some f} :=
  h.subset fun i hi => by
    have hi' : ref i = some f := hi
    simp [hi']

theorem refCount_pos (h : FinRefs ref) : 0 < refCount ref f ↔ ∃ i, ref i = some f :=
  Set.ncard_pos (h.to f)

theorem refCount_eq_zero (h : FinRefs ref) : refCount ref f = 0 ↔ ∀ i, ref i ≠ some f := by
  unfold refCount
  rw [Set.ncard_eq_zero (h.to f), Set.eq_empty_iff_forall_notMem]
  rfl

theorem refCount_congr (h : ∀ i, ref i = some f ↔ ref' i = some f) :
    refCount ref f = refCount ref' f := by
  unfold refCount
  congr 1
  ext i
  exact h i

/-- Objects with one reference are referred to from one slot. -/
theorem eq_of_refCount_one (h : refCount ref f = 1) (hi : ref i = some f) (hj : ref j = some f) :
    i = j := by
  obtain ⟨k, hk⟩ := Set.ncard_eq_one.1 h
  have hik : i ∈ ({k} : Set ι) := hk ▸ hi
  have hjk : j ∈ ({k} : Set ι) := hk ▸ hj
  rw [Set.mem_singleton_iff] at hik hjk
  rw [hik, hjk]

theorem refCount_eq_one (h : ref i = some f) (hu : ∀ j, ref j = some f → j = i) :
    refCount ref f = 1 := by
  unfold refCount
  rw [Set.ncard_eq_one]
  refine ⟨i, Set.eq_singleton_iff_unique_mem.2 ⟨h, hu⟩⟩

/-- Where a key tells the references to `f` apart, there are at most as many
as keys. -/
theorem refCount_le {K : Set κ} (hK : K.Finite) (key : ι → κ)
    (hk : ∀ i, ref i = some f → key i ∈ K)
    (hinj : ∀ i j, ref i = some f → ref j = some f → key i = key j → i = j) :
    refCount ref f ≤ K.ncard :=
  Set.ncard_le_ncard_of_injOn key hk (fun i hi j hj => hinj i j hi hj) hK

section Update
variable [DecidableEq ι]

theorem FinRefs.update (h : FinRefs ref) (i : ι) (r : Option φ) : FinRefs (update ref i r) := by
  refine (h.insert i).subset fun j hj => ?_
  by_cases hji : j = i
  · exact Set.mem_insert_iff.2 (.inl hji)
  · refine Set.mem_insert_iff.2 (.inr ?_)
    have hj' : Function.update ref i r j ≠ none := hj
    rw [update_of_ne hji] at hj'
    exact hj'

variable [DecidableEq φ]

/-- An empty slot is filled. -/
theorem refCount_attach (h : FinRefs ref) (hi : ref i = none) (f g : φ) :
    refCount (update ref i (some f)) g = refCount ref g + if g = f then 1 else 0 := by
  split
  · rename_i hg
    subst hg
    have hset : {j | update ref i (some g) j = some g} = insert i {j | ref j = some g} := by
      ext j
      by_cases hj : j = i
      · simp [hj]
      · simp [hj]
    unfold refCount
    rw [hset, Set.ncard_insert_of_notMem (by simp [hi]) (h.to g)]
  · rename_i hg
    refine refCount_congr fun j => ?_
    by_cases hj : j = i
    · subst hj
      rw [update_self, hi]
      simp [Ne.symm hg]
    · rw [update_of_ne hj]

/-- A slot is emptied. -/
theorem refCount_detach (h : FinRefs ref) (hi : ref i = some f) (g : φ) :
    refCount (update ref i none) g + (if g = f then 1 else 0) = refCount ref g := by
  have hn : update ref i none i = none := update_self ..
  have ha := refCount_attach (h.update i none) hn f g
  rw [update_idem, show Function.update ref i (some f) = ref by rw [← hi, update_eq_self]] at ha
  exact ha.symm

/-- All slots of `S` are emptied; none of the other slots refers to what they
referred to more than once. -/
theorem refCount_drop (h : FinRefs ref) {S : Set ι} [DecidablePred (· ∈ S)]
    (hS : ∀ i j, i ∈ S → j ∈ S → ref i = some g → ref j = some g → i = j)
    [Decidable (∃ i ∈ S, ref i = some g)] :
    refCount (fun i => if i ∈ S then none else ref i) g +
      (if ∃ i ∈ S, ref i = some g then 1 else 0) = refCount ref g := by
  split
  · rename_i hex
    obtain ⟨i, hiS, hi⟩ := hex
    rw [← refCount_detach h hi g, if_pos rfl]
    congr 1
    refine refCount_congr fun j => ?_
    by_cases hj : j = i
    · subst hj
      simp [hiS]
    · rw [update_of_ne hj]
      by_cases hjS : j ∈ S
      · simp only [hjS, if_true]
        exact ⟨fun hf => (nomatch hf), fun hf => absurd (hS j i hjS hiS hf hi) hj⟩
      · simp only [hjS, if_false]
  · rename_i hex
    refine refCount_congr fun j => ?_
    by_cases hjS : j ∈ S
    · simp only [hjS, if_true]
      exact ⟨fun hf => (nomatch hf), fun hf => absurd ⟨j, hjS, hf⟩ hex⟩
    · simp only [hjS, if_false]

end Update

/-! ## Books -/

/-- On `D` the counters are the references and what is due. -/
def Balanced (D : φ → Prop) (ref : ι → Option φ) (cnt : φ → Nat) (due : φ → Int) : Prop :=
  ∀ f, D f → (cnt f : Int) = refCount ref f + due f

section
variable {D : φ → Prop} {cnt : φ → Nat} {due : φ → Int}

/-- An object that is counted 0 and for which nothing is owed has no reference. -/
theorem Balanced.unreferenced (h : Balanced D ref cnt due) (hfin : FinRefs ref) (hf : D f)
    (hc : cnt f = 0) (hd : 0 ≤ due f) : ∀ i, ref i ≠ some f := by
  have hb := h f hf
  exact (refCount_eq_zero hfin).1 (by omega)

/-- What is referred to and not owed is counted. -/
theorem Balanced.counted (h : Balanced D ref cnt due) (hfin : FinRefs ref) (hf : D f)
    (hi : ref i = some f) (hd : 0 ≤ due f) : 0 < cnt f := by
  have hb := h f hf
  have hp := (refCount_pos hfin).2 ⟨i, hi⟩
  omega

end

/-- Nothing is due. -/
def quits : φ → Int := fun _ => 0

/-- `n` more references to `f` are due. -/
def owing [DecidableEq φ] (due : φ → Int) (f : φ) (n : Int) : φ → Int :=
  fun g => due g + if g = f then n else 0

section Books
variable [DecidableEq φ] {D : φ → Prop} {cnt : φ → Nat} {due : φ → Int}

@[simp] theorem owing_self (due : φ → Int) (f : φ) (n : Int) : owing due f n f = due f + n := by
  simp [owing]

theorem owing_ne (due : φ → Int) {f g : φ} (h : g ≠ f) (n : Int) : owing due f n g = due g := by
  simp [owing, h]

theorem owing_owing (due : φ → Int) (f : φ) (m n : Int) :
    owing (owing due f m) f n = owing due f (m + n) := by
  funext g
  unfold owing
  split
  · omega
  · omega

theorem owing_zero (due : φ → Int) (f : φ) : owing due f 0 = due := by
  funext g
  simp [owing]

theorem owing_comm (due : φ → Int) (f g : φ) (m n : Int) :
    owing (owing due f m) g n = owing (owing due g n) f m := by
  funext k
  unfold owing
  omega

/-- The counter of `f` changes by `n`. -/
theorem Balanced.count (h : Balanced D ref cnt due) {c : Nat} {n : Int} (hc : (c : Int) = cnt f + n) :
    Balanced D ref (update cnt f c) (owing due f n) := by
  intro g hg
  by_cases hgf : g = f
  · subst hgf
    rw [update_self, owing_self, hc, h g hg]
    omega
  · rw [update_of_ne hgf, owing_ne _ hgf]
    exact h g hg

variable [DecidableEq ι]

/-- A reference is stored. -/
theorem Balanced.attach (h : Balanced D ref cnt due) (hfin : FinRefs ref) (hi : ref i = none) (f : φ) :
    Balanced D (update ref i (some f)) cnt (owing due f (-1)) := by
  intro g hg
  have hc := h g hg
  rw [refCount_attach hfin hi]
  unfold owing
  split
  · push_cast
    omega
  · push_cast
    omega

/-- A reference is removed. -/
theorem Balanced.detach (h : Balanced D ref cnt due) (hfin : FinRefs ref) (hi : ref i = some f) :
    Balanced D (update ref i none) cnt (owing due f 1) := by
  intro g hg
  have hc := h g hg
  have hd := refCount_detach hfin hi g
  unfold owing
  split
  · rename_i hgf
    rw [if_pos hgf] at hd
    omega
  · rename_i hgf
    rw [if_neg hgf] at hd
    omega

/-! ### Counting off before dropping -/

open Classical in
/-- The references of `S` are counted off, one for each object, but still stored. -/
noncomputable def paid (S : Set ι) (ref : ι → Option φ) (f : φ) : Int :=
  if ∃ i ∈ S, ref i = some f then -1 else 0

omit [DecidableEq φ] [DecidableEq ι] in
theorem paid_empty (ref : ι → Option φ) : paid ∅ ref = quits := by
  funext f
  simp [paid, quits]

omit [DecidableEq φ] [DecidableEq ι] in
/-- Nothing is counted off for an object that `S` does not refer to. -/
theorem paid_eq_zero {S : Set ι} (h : ∀ i ∈ S, ref i ≠ some f) : paid S ref f = 0 :=
  if_neg (by rintro ⟨i, hi, hr⟩; exact h i hi hr)

omit [DecidableEq φ] [DecidableEq ι] in
theorem paid_congr {S T : Set ι} (h : ∀ i f, ref i = some f → (i ∈ S ↔ i ∈ T)) : paid S ref = paid T ref := by
  funext f
  unfold paid
  congr 1
  refine propext ⟨?_, ?_⟩
  · rintro ⟨i, hi, hr⟩
    exact ⟨i, (h i f hr).1 hi, hr⟩
  · rintro ⟨i, hi, hr⟩
    exact ⟨i, (h i f hr).2 hi, hr⟩

omit [DecidableEq ι] in
/-- One more is counted off. -/
theorem paid_insert {S : Set ι} (hi : ref i = some f) (hS : ∀ j ∈ S, ref j ≠ some f) :
    paid (insert i S) ref = owing (paid S ref) f (-1) := by
  funext g
  by_cases hg : g = f
  · subst hg
    rw [owing_self, paid_eq_zero hS]
    exact if_pos ⟨i, Set.mem_insert i S, hi⟩
  · rw [owing_ne _ hg]
    unfold paid
    congr 1
    refine propext ⟨?_, ?_⟩
    · rintro ⟨j, hj, hr⟩
      rcases Set.mem_insert_iff.1 hj with rfl | hj
      · rw [hi] at hr
        exact absurd (Option.some.inj hr).symm hg
      · exact ⟨j, hj, hr⟩
    · rintro ⟨j, hj, hr⟩
      exact ⟨j, Set.mem_insert_of_mem i hj, hr⟩

/-- What has been counted off is dropped. -/
theorem Balanced.drop {S : Set ι} [DecidablePred (· ∈ S)] (h : Balanced D ref cnt (paid S ref)) (hfin : FinRefs ref)
    (hS : ∀ i j f, i ∈ S → j ∈ S → ref i = some f → ref j = some f → i = j) :
    Balanced D (fun i => if i ∈ S then none else ref i) cnt quits := by
  classical
  intro g hg
  have hc := h g hg
  have hd := refCount_drop hfin (S := S) (g := g) fun i j hi hj => hS i j g hi hj
  have hp : paid S ref g = if ∃ i ∈ S, ref i = some g then -1 else 0 := by
    unfold paid
    congr
  have hq : (quits g : Int) = 0 := rfl
  rw [hp] at hc
  split at hc
  · rename_i hex
    rw [if_pos hex] at hd
    omega
  · rename_i hex
    rw [if_neg hex] at hd
    omega

end Books

end Enix.Core
