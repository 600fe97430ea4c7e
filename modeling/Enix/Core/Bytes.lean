import Mathlib.Tactic.NormNum

/-!
# Byte strings and little-endian words

A block of memory or of a disk is a function from offsets to bytes; only the
offsets a program uses matter. `splice` is what a copy of `n` bytes does to
its destination, `le32` reads the 32-bit word at an offset and `words` lays
out words one after the other.

* `le32_words`: reading back a laid-out word gives it modulo 2^32.
* `le32_splice_in`, `le32_splice_out`: a copy is seen inside its range and
  nowhere else.
-/
set_option autoImplicit false

namespace Enix.Core

abbrev Bytes := Nat → UInt8

/-- All zero. -/
def zeros : Bytes := fun _ => 0

/-- `p + o` for a pointer `p`. -/
def shift (b : Bytes) (o : Nat) : Bytes := fun a => b (o + a)

/-- `memcpy(dst + o, src, n)`. -/
def splice (dst : Bytes) (o : Nat) (src : Bytes) (n : Nat) : Bytes :=
  fun a => if o ≤ a ∧ a < o + n then src (a - o) else dst a

/-- Byte `i` of the little-endian form of `v`. -/
def byteOf (v i : Nat) : UInt8 := UInt8.ofNat (v / 256 ^ i)

/-- The 32-bit word at offset `o`. -/
def le32 (b : Bytes) (o : Nat) : Nat :=
  (b o).toNat + 256 * (b (o + 1)).toNat + 65536 * (b (o + 2)).toNat + 16777216 * (b (o + 3)).toNat

/-- Words laid out one after the other. -/
def words (f : Nat → Nat) : Bytes := fun a => byteOf (f (a / 4)) (a % 4)

theorem splice_in {dst src : Bytes} {o n a : Nat} (h1 : o ≤ a) (h2 : a < o + n) :
    splice dst o src n a = src (a - o) := if_pos ⟨h1, h2⟩

theorem splice_out {dst src : Bytes} {o n a : Nat} (h : a < o ∨ o + n ≤ a) :
    splice dst o src n a = dst a := if_neg (by omega)

theorem toNat_byteOf (v i : Nat) : (byteOf v i).toNat = v / 256 ^ i % 256 := by
  simp [byteOf]

theorem le32_lt (b : Bytes) (o : Nat) : le32 b o < 4294967296 := by
  have h0 := (b o).toNat_lt; have h1 := (b (o + 1)).toNat_lt
  have h2 := (b (o + 2)).toNat_lt; have h3 := (b (o + 3)).toNat_lt
  unfold le32; omega

theorem le32_congr {b c : Bytes} {o p : Nat} (h : ∀ i, i < 4 → b (o + i) = c (p + i)) :
    le32 b o = le32 c p := by
  have h0 := h 0 (by decide); have h1 := h 1 (by decide)
  have h2 := h 2 (by decide); have h3 := h 3 (by decide)
  simp only [Nat.add_zero] at h0
  unfold le32; rw [h0, h1, h2, h3]

theorem le32_shift (b : Bytes) (o p : Nat) : le32 (shift b o) p = le32 b (o + p) := rfl

theorem le32_splice_in {dst src : Bytes} {o n p : Nat} (h1 : o ≤ p) (h2 : p + 4 ≤ o + n) :
    le32 (splice dst o src n) p = le32 src (p - o) :=
  le32_congr fun i hi => by
    rw [splice_in (by omega) (by omega)]; congr 1; omega

theorem le32_splice_out {dst src : Bytes} {o n p : Nat} (h : p + 4 ≤ o ∨ o + n ≤ p) :
    le32 (splice dst o src n) p = le32 dst p :=
  le32_congr fun i hi => splice_out (by omega)

theorem le32_zeros (o : Nat) : le32 zeros o = 0 := rfl

/-- The four bytes of `v` add up to `v` modulo 2^32. -/
theorem bytes_sum (v : Nat) : v / 256 ^ 0 % 256 + 256 * (v / 256 ^ 1 % 256) +
    65536 * (v / 256 ^ 2 % 256) + 16777216 * (v / 256 ^ 3 % 256) = v % 4294967296 := by
  norm_num; omega

theorem le32_words (f : Nat → Nat) (i : Nat) : le32 (words f) (4 * i) = f i % 4294967296 := by
  have hd : ∀ j, j < 4 → (4 * i + j) / 4 = i := by omega
  have hm : ∀ j, j < 4 → (4 * i + j) % 4 = j := by omega
  have hb : ∀ j, j < 4 → words f (4 * i + j) = byteOf (f i) j := fun j hj => by
    simp only [words, hd j hj, hm j hj]
  have h0 := hb 0 (by decide)
  rw [Nat.add_zero] at h0
  unfold le32
  rw [h0, hb 1 (by decide), hb 2 (by decide), hb 3 (by decide)]
  simp only [toNat_byteOf]
  exact bytes_sum (f i)

/-- A word below 2^32 survives being laid out. -/
theorem le32_words_of_lt {f : Nat → Nat} {i : Nat} (h : f i < 4294967296) :
    le32 (words f) (4 * i) = f i := by rw [le32_words, Nat.mod_eq_of_lt h]

end Enix.Core
