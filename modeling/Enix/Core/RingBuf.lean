import Mathlib.Data.Nat.ModEq

/-!
# Ring buffers

An array of `N` places of which one always stays free: `head` is the place of the
next element, `tail` that of the oldest. `contents` lists the elements, oldest
first.

* `length_contents`: how many elements there are.
* `contents_push`, `contents_pop`: the two operations on the list.
-/
set_option autoImplicit false

namespace Enix.Core

structure RingBuf (α : Type) where
  buf : Nat → α
  head : Nat
  tail : Nat

namespace RingBuf
variable {α : Type} {N : Nat} {r : RingBuf α}

/-- Both indices are places. -/
structure Ok (N : Nat) (r : RingBuf α) : Prop where
  head : r.head < N
  tail : r.tail < N

/-- The number of elements. -/
def used (N : Nat) (r : RingBuf α) : Nat := if r.tail ≤ r.head then r.head - r.tail else N - (r.tail - r.head)

def contents (N : Nat) (r : RingBuf α) : List α := (List.range (r.used N)).map fun j => r.buf ((r.tail + j) % N)

/-- A new element. -/
def push (N : Nat) (r : RingBuf α) (a : α) : RingBuf α :=
  { r with buf := fun i => if i = r.head then a else r.buf i, head := (r.head + 1) % N }

/-- Without the oldest element. -/
def pop (N : Nat) (r : RingBuf α) : RingBuf α := { r with tail := (r.tail + 1) % N }

@[simp] theorem length_contents : (r.contents N).length = r.used N := by simp [contents]

theorem used_lt (h : r.Ok N) : r.used N < N := by
  have := h.head
  have := h.tail
  unfold used
  split
  · omega
  · omega

theorem used_eq_zero (h : r.Ok N) : r.used N = 0 ↔ r.head = r.tail := by
  have := h.head
  have := h.tail
  unfold used
  split
  · omega
  · omega

/-- The place of the next element is behind the elements. -/
theorem head_eq (h : r.Ok N) : r.head = (r.tail + r.used N) % N := by
  have := h.head
  have := h.tail
  unfold used
  split
  · rw [Nat.mod_eq_of_lt (by omega)]
    omega
  · have he : r.tail + (N - (r.tail - r.head)) = r.head + N := by omega
    rw [he, Nat.add_mod_right, Nat.mod_eq_of_lt h.head]

theorem next_lt (h : r.Ok N) (i : Nat) : (i + 1) % N < N := Nat.mod_lt _ (by have := h.head; omega)

theorem next_eq {i : Nat} (h : i < N) : (i + 1) % N = if i + 1 = N then 0 else i + 1 := by
  split
  · rename_i he
    rw [he, Nat.mod_self]
  · exact Nat.mod_eq_of_lt (by omega)

/-- The ring is full. -/
theorem used_full (h : r.Ok N) : r.used N + 1 = N ↔ (r.head + 1) % N = r.tail := by
  have h₁ := h.head
  have h₂ := h.tail
  rw [next_eq h₁]
  unfold used
  split
  · split
    · omega
    · omega
  · split
    · omega
    · omega

theorem Ok.push (h : r.Ok N) (a : α) : (r.push N a).Ok N := ⟨next_lt h _, h.tail⟩

theorem Ok.pop (h : r.Ok N) : (r.pop N).Ok N := ⟨h.head, next_lt h _⟩

theorem used_push (h : r.Ok N) (hroom : r.used N + 1 < N) (a : α) : (r.push N a).used N = r.used N + 1 := by
  have h₁ := h.head
  have h₂ := h.tail
  unfold used at hroom
  unfold used RingBuf.push
  simp only [next_eq h₁]
  split at hroom
  · split
    · split
      · omega
      · omega
    · split
      · omega
      · omega
  · split
    · split
      · omega
      · omega
    · split
      · omega
      · omega

/-- A new element is the last one. -/
theorem contents_push (h : r.Ok N) (hroom : r.used N + 1 < N) (a : α) :
    (r.push N a).contents N = r.contents N ++ [a] := by
  unfold contents
  rw [used_push h hroom, List.range_succ, List.map_append, List.map_singleton]
  have hlast : (r.push N a).buf (((r.push N a).tail + r.used N) % N) = a := by
    have he : (r.tail + r.used N) % N = r.head := (head_eq h).symm
    simp [RingBuf.push, he]
  rw [hlast]
  congr 1
  refine List.map_congr_left fun j hj => ?_
  have hlt := List.mem_range.1 hj
  -- no older element is at the new one's place
  have hne : (r.tail + j) % N ≠ r.head := by
    rw [head_eq h]
    intro he
    have hmod : j ≡ r.used N [MOD N] := Nat.ModEq.add_left_cancel' r.tail he
    have heq := Nat.ModEq.eq_of_lt_of_lt hmod (by omega) (by omega)
    omega
  simp [RingBuf.push, hne]

theorem used_pop (h : r.Ok N) (hne : r.head ≠ r.tail) : (r.pop N).used N + 1 = r.used N := by
  have h₁ := h.head
  have h₂ := h.tail
  unfold used RingBuf.pop
  simp only [next_eq h₂]
  split
  · split
    · split
      · omega
      · omega
    · split
      · omega
      · omega
  · split
    · split
      · omega
      · omega
    · split
      · omega
      · omega

/-- The oldest element is the first one. -/
theorem contents_pop (h : r.Ok N) (hne : r.head ≠ r.tail) :
    r.contents N = r.buf r.tail :: (r.pop N).contents N := by
  unfold contents
  rw [← used_pop h hne, List.range_succ_eq_map, List.map_cons, List.map_map]
  have h0 : (r.tail + 0) % N = r.tail := by rw [Nat.add_zero, Nat.mod_eq_of_lt h.tail]
  rw [h0]
  congr 1
  refine List.map_congr_left fun j _ => ?_
  have he : (r.tail + (j + 1)) % N = ((r.tail + 1) % N + j) % N := by
    rw [Nat.mod_add_mod]
    congr 1
    omega
  simp [RingBuf.pop, he]

end RingBuf

end Enix.Core
