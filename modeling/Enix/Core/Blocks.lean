import Mathlib.Data.List.Pairwise
import Mathlib.Logic.Function.Basic

/-!
# Blocks of a memory

What a program knows of its allocator: the blocks that it has, by address and
size, and what it has stored in them. Addresses are numbers, cells hold values of
any type.

* `Blocks.Ok`: no block is empty, and no two have a cell in common. `alloc`,
  `free` and `store` keep it, `alloc` of a block that is apart from the others.
* `Blocks.Agrees`: a memory has in the blocks what the program has stored there.
-/
set_option autoImplicit false

namespace Enix.Core
open Function

/-- Cell `a` is one of `x`, a block with its size. -/
def Covers (x : Nat × Nat) (a : Nat) : Prop := x.1 ≤ a ∧ a < x.1 + x.2

/-- Two blocks have no cell in common. -/
def Apart (x y : Nat × Nat) : Prop := x.1 + x.2 ≤ y.1 ∨ y.1 + y.2 ≤ x.1

structure Blocks (α : Type) where
  blocks : List (Nat × Nat)
  /-- what is stored; outside the blocks it says nothing -/
  val : Nat → α

namespace Blocks
variable {α : Type}

/-- No block. -/
def none (v : α) : Blocks α := ⟨[], fun _ => v⟩

/-- Cell `a` is in a block. -/
def Has (B : Blocks α) (a : Nat) : Prop := ∃ x ∈ B.blocks, Covers x a

/-- A block of `n` cells at `b`, filled with `v`. -/
def alloc (B : Blocks α) (b n : Nat) (v : α) : Blocks α :=
  ⟨(b, n) :: B.blocks, fun a => if b ≤ a ∧ a < b + n then v else B.val a⟩

/-- The block at `b` is gone. -/
def free (B : Blocks α) (b : Nat) : Blocks α := ⟨B.blocks.filter (·.1 ≠ b), B.val⟩

def store (B : Blocks α) (a : Nat) (v : α) : Blocks α := ⟨B.blocks, update B.val a v⟩

structure Ok (B : Blocks α) : Prop where
  pos : ∀ x ∈ B.blocks, 0 < x.2
  apart : B.blocks.Pairwise Apart

/-- Memory `f` has in the blocks what has been stored there. -/
def Agrees (B : Blocks α) (f : Nat → α) : Prop := ∀ a, B.Has a → f a = B.val a

instance (x : Nat × Nat) (a : Nat) : Decidable (Covers x a) := inferInstanceAs (Decidable (_ ∧ _))
instance (x y : Nat × Nat) : Decidable (Apart x y) := inferInstanceAs (Decidable (_ ∨ _))
instance (B : Blocks α) (a : Nat) : Decidable (B.Has a) := inferInstanceAs (Decidable (∃ x ∈ B.blocks, Covers x a))

variable {B : Blocks α} {f f' : Nat → α} {a b n : Nat} {v : α} {x : Nat × Nat}

/-! ## What the blocks are -/

@[simp] theorem mem_alloc : x ∈ (B.alloc b n v).blocks ↔ x = (b, n) ∨ x ∈ B.blocks := List.mem_cons

@[simp] theorem mem_free : x ∈ (B.free b).blocks ↔ x ∈ B.blocks ∧ x.1 ≠ b := by
  unfold free
  rw [List.mem_filter, decide_eq_true_eq]

@[simp] theorem blocks_store : (B.store a v).blocks = B.blocks := rfl

theorem has_alloc : (B.alloc b n v).Has a ↔ (b ≤ a ∧ a < b + n) ∨ B.Has a := by
  unfold Has
  simp only [mem_alloc, or_and_right, exists_or, exists_eq_left]
  rfl

theorem has_store {c : Nat} : (B.store c v).Has a ↔ B.Has a := Iff.rfl

theorem Has.of_free (h : (B.free b).Has a) : B.Has a := by
  obtain ⟨x, hx, ha⟩ := h
  exact ⟨x, (mem_free.1 hx).1, ha⟩

theorem not_has_none : ¬ (none v).Has a := by
  rintro ⟨x, hx, -⟩
  exact List.not_mem_nil hx

/-! ## The operations keep the blocks apart -/

theorem Apart.symm {x y : Nat × Nat} (h : Apart x y) : Apart y x := Or.symm h

instance : Std.Symm Apart := ⟨fun _ _ => Apart.symm⟩

/-- Blocks that are apart have no cell in common. -/
theorem Apart.not_covers {x y : Nat × Nat} (h : Apart x y) (hx : Covers x a) : ¬ Covers y a := by
  unfold Apart at h
  unfold Covers at hx ⊢
  omega

theorem Ok.none : (Blocks.none v).Ok := ⟨fun _ hx => absurd hx List.not_mem_nil, List.Pairwise.nil⟩

theorem Ok.alloc (h : B.Ok) (hn : 0 < n) (hb : ∀ x ∈ B.blocks, Apart (b, n) x) : (B.alloc b n v).Ok := by
  refine ⟨fun x hx => ?_, List.pairwise_cons.2 ⟨hb, h.apart⟩⟩
  rcases mem_alloc.1 hx with rfl | hx
  · exact hn
  · exact h.pos x hx

theorem Ok.free (h : B.Ok) : (B.free b).Ok := ⟨fun x hx => h.pos x (mem_free.1 hx).1, h.apart.filter _⟩

theorem Ok.store (h : B.Ok) : (B.store a v).Ok := ⟨h.pos, h.apart⟩

/-- Two blocks are the same or apart. -/
theorem Ok.eq_or_apart (h : B.Ok) {x y : Nat × Nat} (hx : x ∈ B.blocks) (hy : y ∈ B.blocks) : x = y ∨ Apart x y := by
  by_cases he : x = y
  · exact .inl he
  · exact .inr (h.apart.forall hx hy he)

/-- A block that is given back takes its cells with it. -/
theorem Ok.not_has_free (h : B.Ok) (hx : x ∈ B.blocks) (ha : Covers x a) : ¬ (B.free x.1).Has a := by
  rintro ⟨y, hy, hay⟩
  obtain ⟨hyB, hne⟩ := mem_free.1 hy
  rcases h.eq_or_apart hx hyB with rfl | hap
  · exact hne rfl
  · exact Apart.not_covers hap ha hay

/-! ## The operations and a memory -/

theorem Agrees.none : (Blocks.none v).Agrees f := fun _ ha => (not_has_none ha).elim

theorem Agrees.congr (h : B.Agrees f) (hf : ∀ a, B.Has a → f' a = f a) : B.Agrees f' := fun a ha => by
  rw [hf a ha, h a ha]

theorem Agrees.alloc (h : B.Agrees f) (hnew : ∀ a, b ≤ a → a < b + n → f' a = v)
    (hf : ∀ a, ¬ (b ≤ a ∧ a < b + n) → B.Has a → f' a = f a) : (B.alloc b n v).Agrees f' := by
  intro a ha
  change f' a = if b ≤ a ∧ a < b + n then v else B.val a
  by_cases hab : b ≤ a ∧ a < b + n
  · rw [if_pos hab]
    exact hnew a hab.1 hab.2
  · have hB := (has_alloc.1 ha).resolve_left hab
    rw [if_neg hab, hf a hab hB, h a hB]

theorem Agrees.free (h : B.Agrees f) (hf : ∀ a, (B.free b).Has a → f' a = f a) : (B.free b).Agrees f' := fun a ha => by
  rw [hf a ha]
  exact h a ha.of_free

theorem Agrees.store (h : B.Agrees f) (ha : B.Has a → f' a = v) (hf : ∀ c, c ≠ a → B.Has c → f' c = f c) :
    (B.store a v).Agrees f' := by
  intro c hc
  change f' c = update B.val a v c
  by_cases hca : c = a
  · subst hca
    rw [update_self]
    exact ha hc
  · rw [update_of_ne hca, hf c hca hc, h c hc]

end Blocks

end Enix.Core
