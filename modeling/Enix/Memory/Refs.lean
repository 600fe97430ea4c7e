import Enix.Core.RefCount
import Enix.Memory.Process

/-!
# References to frames

A frame is referred to by the kernel's half (`Ref.kernel`), by a present entry
of a page directory (`Ref.pde`) or by a present entry of a page table of a
live address space (`Ref.pte`). `Spaces` says which address spaces are live
and in which frame their directories are.

* `RefsOk`: where references may point to, and that only entries for the same
  page in different spaces share a frame.
* `RefsOk.attach`, `RefsOk.detach`, `RefsOk.drop`: one reference more, one
  less, the references of a space gone.
-/
set_option autoImplicit false

namespace Enix.Memory
open Enix.Core Enix.Kernel Function

/-- From where a frame is referred to; `p` is the page of a `task_struct`. -/
inductive Ref where
  | kernel (v : Nat)
  | pde (p i : Nat)
  | pte (p v : Nat)
  deriving DecidableEq

/-- The frames of the page directories of the live address spaces. -/
abbrev Spaces := Nat → Option Nat

/-- A present entry. -/
def entry (w : Nat) : Option Nat := if present w then some w else none

/-- Entry `i` of the directory in frame `d`. -/
def pdeAt (phys : Nat → Bytes) (d i : Nat) : Nat := le32 (phys d) (4 * i)

/-- The entry for page `v` under the directory in frame `d`. -/
def pteAt (phys : Nat → Bytes) (d v : Nat) : Nat :=
  le32 (phys (pdeAt phys d (v / 1024) / 4096)) (4 * (v % 1024))

/-- The present entries. -/
def entries (L : Spaces) (s : Vm) : Ref → Option Nat
  | .kernel v => entry (s.kernelPte v)
  | .pde p i => (L p).bind fun d => if i < 768 then entry (pdeAt s.phys d i) else none
  | .pte p v => (L p).bind fun d =>
    if v < kernelBase ∧ present (pdeAt s.phys d (v / 1024)) then entry (pteAt s.phys d v) else none

/-- The frames that entries refer to. -/
def refsOf (e : Ref → Option Nat) (r : Ref) : Option Nat := (e r).map (· / 4096)

def refs (L : Spaces) (s : Vm) : Ref → Option Nat := refsOf (entries L s)

/-! ## Words and entries -/

section Words
variable {b : Bytes} {o o' w : Nat}

theorem le32_putWord_self (hw : w < 4294967296) : le32 (putWord b o w) o = w := by
  unfold putWord
  rw [le32_splice_in (Nat.le_refl _) (Nat.le_refl _), Nat.sub_self]
  exact le32_words_of_lt (f := fun _ => w) (i := 0) hw

theorem le32_putWord_ne (h : o' + 4 ≤ o ∨ o + 4 ≤ o') : le32 (putWord b o w) o' = le32 b o' :=
  le32_splice_out h

theorem entry_eq_some : entry w = some o ↔ present w = true ∧ w = o := by
  unfold entry
  split
  · rename_i h
    simp [h]
  · rename_i h
    simp [h]

theorem entry_eq_none : entry w = none ↔ present w = false := by
  unfold entry
  split
  · rename_i h
    simp [h]
  · rename_i h
    simp [h]

theorem entry_of_present (h : present w = true) : entry w = some w := entry_eq_some.2 ⟨h, rfl⟩

theorem present_pgRw (f : Nat) : present (f * 4096 + pgRw) = true := by
  unfold present pgRw
  exact decide_eq_true (by omega)

theorem present_pgRo (f : Nat) : present (f * 4096 + pgRo) = true := by
  unfold present pgRo
  exact decide_eq_true (by omega)

@[simp] theorem frame_pgRw (f : Nat) : (f * 4096 + pgRw) / 4096 = f := by
  unfold pgRw
  omega

@[simp] theorem frame_pgRo (f : Nat) : (f * 4096 + pgRo) / 4096 = f := by
  unfold pgRo
  omega

@[simp] theorem flags_pgRw (f : Nat) : (f * 4096 + pgRw) % 4096 = pgRw := by
  unfold pgRw
  omega

@[simp] theorem flags_pgRo (f : Nat) : (f * 4096 + pgRo) % 4096 = pgRo := by
  unfold pgRo
  omega

/-- `*pte &= ~PG_P_1` leaves the frame and clears P. -/
theorem entry_clear (w : Nat) : entry (w - w % 2) = none :=
  entry_eq_none.2 (by unfold present; exact decide_eq_false (by omega))

end Words

/-! ## The bitmaps of ranges -/

@[simp] theorem setRange_btmpBytesLen (b : Bitmap) (v : Bool) : ∀ n i,
    (setRange b v i n).btmpBytesLen = b.btmpBytesLen := by
  intro n
  induction n generalizing b with
  | zero => intro i; rfl
  | succ n ih => intro i; exact ih (b.set i v) (i + 1)

@[simp] theorem setRange_size (b : Bitmap) (v : Bool) (i n : Nat) :
    (setRange b v i n).size = b.size := by
  unfold Bitmap.size
  rw [setRange_btmpBytesLen]

theorem bit_setRange (b : Bitmap) (v : Bool) (j : Nat) : ∀ n i,
    (setRange b v i n).bit j = if i ≤ j ∧ j < i + n then v else b.bit j := by
  intro n
  induction n generalizing b with
  | zero =>
    intro i
    rw [if_neg (by omega)]
    rfl
  | succ n ih =>
    intro i
    unfold setRange
    rw [ih (b.set i v) (i + 1), Bitmap.bit_set]
    by_cases hji : j = i
    · rw [if_neg (by omega), if_pos hji, if_pos (by omega)]
    · rw [if_neg hji]
      by_cases hr : i + 1 ≤ j ∧ j < i + 1 + n
      · rw [if_pos hr, if_pos (by omega)]
      · rw [if_neg hr, if_neg (by omega)]

/-! ## Where references point to -/

/-- A reference from `r` may point to `f`. -/
def Home (kernel pooled : Nat → Prop) : Ref → Nat → Prop
  | .kernel v, f => if v < kHeapStart then f < memBase else kernel f
  | .pde _ _, f => kernel f
  | .pte _ _, f => pooled f

theorem home_kernel {kernel pooled : Nat → Prop} {v f : Nat} (hv : kHeapStart ≤ v) :
    Home kernel pooled (.kernel v) f ↔ kernel f := by
  simp only [Home, if_neg (Nat.not_lt.2 hv)]

structure RefsOk (kernel pooled : Nat → Prop) (L : Spaces) (ref : Ref → Option Nat) : Prop where
  fin : FinRefs ref
  home : ∀ r f, ref r = some f → Home kernel pooled r f
  shared : ∀ r r' f, ref r = some f → ref r' = some f → memBase ≤ f →
    r = r' ∨ ∃ p p' v, r = .pte p v ∧ r' = .pte p' v
  dir : ∀ p d, L p = some d → ∃ v, kHeapStart ≤ v ∧ ref (.kernel v) = some d
  inj : ∀ p q d, L p = some d → L q = some d → p = q

section RefsOk
variable {kernel pooled : Nat → Prop} {L L' : Spaces} {ref : Ref → Option Nat} {r r' : Ref}
  {f g p q i v d : Nat}

theorem RefsOk.attach (h : RefsOk kernel pooled L ref) (hr : ref r = none)
    (hhome : Home kernel pooled r f)
    (hs : memBase ≤ f → ∀ r', ref r' = some f → ∃ p p' v, r = .pte p v ∧ r' = .pte p' v) :
    RefsOk kernel pooled L (update ref r (some f)) where
  fin := h.fin.update r (some f)
  home r' g hg := by
    by_cases hrr : r' = r
    · subst hrr
      rw [update_self] at hg
      cases hg
      exact hhome
    · rw [update_of_ne hrr] at hg
      exact h.home r' g hg
  shared r₁ r₂ g h₁ h₂ hb := by
    by_cases hr₁ : r₁ = r
    · subst hr₁
      rw [update_self] at h₁
      cases h₁
      by_cases hr₂ : r₂ = r₁
      · exact .inl hr₂.symm
      · rw [update_of_ne hr₂] at h₂
        exact .inr (hs hb r₂ h₂)
    · rw [update_of_ne hr₁] at h₁
      by_cases hr₂ : r₂ = r
      · subst hr₂
        rw [update_self] at h₂
        cases h₂
        obtain ⟨p, p', v, hp, hp'⟩ := hs hb r₁ h₁
        exact .inr ⟨p', p, v, hp', hp⟩
      · rw [update_of_ne hr₂] at h₂
        exact h.shared r₁ r₂ g h₁ h₂ hb
  dir p d hd := by
    obtain ⟨v, hv, hk⟩ := h.dir p d hd
    refine ⟨v, hv, ?_⟩
    rw [update_of_ne (fun he => by rw [he, hr] at hk; cases hk)]
    exact hk
  inj := h.inj

theorem RefsOk.detach (h : RefsOk kernel pooled L ref) (hr : ∀ p d, L p = some d → ref r ≠ some d) :
    RefsOk kernel pooled L (update ref r none) where
  fin := h.fin.update r none
  home r' g hg := by
    by_cases hrr : r' = r
    · subst hrr
      rw [update_self] at hg
      cases hg
    · rw [update_of_ne hrr] at hg
      exact h.home r' g hg
  shared r₁ r₂ g h₁ h₂ hb := by
    by_cases hr₁ : r₁ = r
    · subst hr₁
      rw [update_self] at h₁
      cases h₁
    · by_cases hr₂ : r₂ = r
      · subst hr₂
        rw [update_self] at h₂
        cases h₂
      · rw [update_of_ne hr₁] at h₁
        rw [update_of_ne hr₂] at h₂
        exact h.shared r₁ r₂ g h₁ h₂ hb
  dir p d hd := by
    obtain ⟨v, hv, hk⟩ := h.dir p d hd
    have hne : Ref.kernel v ≠ r := by
      rintro rfl
      exact hr p d hd hk
    refine ⟨v, hv, ?_⟩
    rw [update_of_ne hne]
    exact hk
  inj := h.inj

/-- The references of some spaces are gone. -/
theorem RefsOk.drop (h : RefsOk kernel pooled L ref) {ref' : Ref → Option Nat}
    (hsub : ∀ r f, ref' r = some f → ref r = some f)
    (hdir : ∀ p d v, L' p = some d → ref (.kernel v) = some d → ref' (.kernel v) = some d)
    (hL : ∀ p d, L' p = some d → L p = some d) : RefsOk kernel pooled L' ref' where
  fin := h.fin.subset fun r hr hn => hr (by
    cases hr' : ref' r with
    | none => rfl
    | some f => rw [hsub r f hr'] at hn; cases hn)
  home r f hf := h.home r f (hsub r f hf)
  shared r₁ r₂ f h₁ h₂ hb := h.shared r₁ r₂ f (hsub _ _ h₁) (hsub _ _ h₂) hb
  dir p d hd := by
    obtain ⟨v, hv, hk⟩ := h.dir p d (hL p d hd)
    exact ⟨v, hv, hdir p d v hd hk⟩
  inj p q d hp hq := h.inj p q d (hL p d hp) (hL q d hq)

variable (hK : ∀ f, kernel f → memBase ≤ f) (hP : ∀ f, pooled f → memBase ≤ f)
include hK

/-- A directory has no reference but that of its page in the kernel. -/
theorem RefsOk.dir_only (h : RefsOk kernel pooled L ref) (hL : L p = some d) (hr : ref r = some d) :
    ∃ v, kHeapStart ≤ v ∧ r = .kernel v := by
  obtain ⟨v, hv, hk⟩ := h.dir p d hL
  have hh := (home_kernel hv).1 (h.home _ _ hk)
  rcases h.shared _ _ d hk hr (hK d hh) with rfl | ⟨_, _, _, he, -⟩
  · exact ⟨v, hv, rfl⟩
  · cases he

/-- A page table has no reference but its directory entry. -/
theorem RefsOk.table_only (h : RefsOk kernel pooled L ref) (hi : ref (.pde p i) = some f)
    (hr : ref r = some f) : r = .pde p i := by
  rcases h.shared _ _ f hi hr (hK f (h.home _ _ hi)) with rfl | ⟨_, _, _, he, -⟩
  · rfl
  · cases he

/-- A page of the kernel's heap is mapped once. -/
theorem RefsOk.kernel_only (h : RefsOk kernel pooled L ref) (hv : kHeapStart ≤ v)
    (hk : ref (.kernel v) = some f) (hr : ref r = some f) : r = .kernel v := by
  have hh := (home_kernel hv).1 (h.home _ _ hk)
  rcases h.shared _ _ f hk hr (hK f hh) with rfl | ⟨_, _, _, he, -⟩
  · rfl
  · cases he

omit hK
include hP

/-- A page of a process is shared with the same page of others only. -/
theorem RefsOk.page_only (h : RefsOk kernel pooled L ref) (hv : ref (.pte p v) = some f)
    (hr : ref r = some f) : ∃ q, r = .pte q v := by
  rcases h.shared _ _ f hv hr (hP f (h.home _ _ hv)) with rfl | ⟨p', q, v', he, hr'⟩
  · exact ⟨p, rfl⟩
  · cases he
    exact ⟨q, hr'⟩

end RefsOk

end Enix.Memory
