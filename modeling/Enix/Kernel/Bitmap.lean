import Enix.Core.Coroutine
import Mathlib.Data.Finset.Card
import Mathlib.Tactic.NormNum

/-!
# Bitmaps (`lib/bitmap.c`)

A bitmap is a pointer to bytes and a length; the bytes behind the length are
memory like any other, and `bitmap_scan` may look at the first of them.

* `scan_one`: `bitmap_scan(btmp, 1)` is the least clear bit, or the ASSERT
  when every bit is set (so -1 is never reported).
* `free_set`: setting a clear bit leaves one clear bit less.
* `bit_set`: `bitmap_set` changes the bit it names and no other.
-/
set_option autoImplicit false

namespace Enix.Kernel

structure Bitmap where
  btmpBytesLen : Nat
  bits : Nat → UInt8

namespace Bitmap

/-- Bit `i` of the map. -/
def bit (b : Bitmap) (i : Nat) : Bool := (b.bits (i / 8)).toBitVec.getLsbD (i % 8)

/-- Number of bits. -/
def size (b : Bitmap) : Nat := 8 * b.btmpBytesLen

/-- Number of clear bits. -/
def free (b : Bitmap) : Nat := (List.range b.size).countP fun i => !b.bit i

/-- mirrors src/lib/bitmap.c:26-31 (`bitmap_scan_test`) -/
def scanTest (b : Bitmap) (bitIdx : Nat) : Bool :=
  b.bits (bitIdx / 8) &&& (1 <<< UInt8.ofNat (bitIdx % 8)) != 0

/-- The byte loop of `bitmap_scan`: at most `n` bytes from `idxByte` on.
mirrors src/lib/bitmap.c:45-46 -/
def skipFull (b : Bitmap) : Nat → Nat → Nat
  | idxByte, 0 => idxByte
  | idxByte, n + 1 => if b.bits idxByte = 0xFF then b.skipFull (idxByte + 1) n else idxByte

/-- The bit loop of `bitmap_scan`; shifted out of the byte the mask is 0.
mirrors src/lib/bitmap.c:56-57 -/
def skipSet (x : UInt8) : Nat → Nat → Nat
  | idxBit, 0 => idxBit
  | idxBit, n + 1 => if x.toBitVec.getLsbD idxBit then skipSet x (idxBit + 1) n else idxBit

/-- The run loop of `bitmap_scan`.
mirrors src/lib/bitmap.c:70-83 -/
def scanRun (b : Bitmap) (cnt : Nat) : (bitLeft nextBit count : Nat) → Int
  | 0, _, _ => -1
  | bitLeft + 1, nextBit, count =>
    let count := if b.scanTest nextBit then 0 else count + 1
    if count = cnt then (nextBit : Int) - cnt + 1 else b.scanRun cnt bitLeft (nextBit + 1) count

/-- `none` is the ASSERT on line 48. Behind it `idx_byte` is below the
length, so the return of -1 on line 51 is dead.
mirrors src/lib/bitmap.c:40-86 (`bitmap_scan`) -/
def scan (b : Bitmap) (cnt : Nat) : Option Int :=
  let idxByte := b.skipFull 0 b.btmpBytesLen
  if idxByte < b.btmpBytesLen then
    let bitIdxStart := idxByte * 8 + skipSet (b.bits idxByte) 0 8
    if cnt = 1 then some bitIdxStart
    else some (b.scanRun cnt (b.btmpBytesLen * 8 - bitIdxStart) (bitIdxStart + 1) 1)
  else none

/-- mirrors src/lib/bitmap.c:95-105 (`bitmap_set`; every caller passes 0 or 1) -/
def set (b : Bitmap) (bitIdx : Nat) (value : Bool) : Bitmap :=
  let mask : UInt8 := 1 <<< UInt8.ofNat (bitIdx % 8)
  let old := b.bits (bitIdx / 8)
  let new := if value then old ||| mask else old &&& ~~~mask
  { b with bits := fun i => if i = bitIdx / 8 then new else b.bits i }

/-! ## The scan -/

theorem skipFull_spec (b : Bitmap) : ∀ n i, i ≤ b.skipFull i n ∧ b.skipFull i n ≤ i + n ∧
    (∀ j, i ≤ j → j < b.skipFull i n → b.bits j = 0xFF) ∧
    (b.skipFull i n < i + n → b.bits (b.skipFull i n) ≠ 0xFF)
  | 0, i => ⟨Nat.le_refl _, Nat.le_refl _, fun j h1 h2 => by simp only [skipFull] at h2; omega,
      fun h => by simp [skipFull] at h⟩
  | n + 1, i => by
    unfold skipFull
    split
    · rename_i hff
      obtain ⟨h1, h2, h3, h4⟩ := skipFull_spec b n (i + 1)
      refine ⟨by omega, by omega, fun j hj1 hj2 => ?_, fun h => h4 (by omega)⟩
      rcases Nat.eq_or_lt_of_le hj1 with rfl | hlt
      · exact hff
      · exact h3 j hlt hj2
    · rename_i hff
      exact ⟨Nat.le_refl _, by omega, fun j h1 h2 => by omega, fun _ => hff⟩

theorem skipSet_spec (x : UInt8) : ∀ n i, i ≤ skipSet x i n ∧ skipSet x i n ≤ i + n ∧
    (∀ j, i ≤ j → j < skipSet x i n → x.toBitVec.getLsbD j = true) ∧
    (skipSet x i n < i + n → x.toBitVec.getLsbD (skipSet x i n) = false)
  | 0, i => ⟨Nat.le_refl _, Nat.le_refl _, fun j h1 h2 => by simp only [skipSet] at h2; omega,
      fun h => by simp [skipSet] at h⟩
  | n + 1, i => by
    unfold skipSet
    split
    · rename_i hs
      obtain ⟨h1, h2, h3, h4⟩ := skipSet_spec x n (i + 1)
      refine ⟨by omega, by omega, fun j hj1 hj2 => ?_, fun h => h4 (by omega)⟩
      rcases Nat.eq_or_lt_of_le hj1 with rfl | hlt
      · exact hs
      · exact h3 j hlt hj2
    · rename_i hs
      exact ⟨Nat.le_refl _, by omega, fun j h1 h2 => by omega, fun _ => by simpa using hs⟩

/-- A byte with all eight bits set is 0xFF. -/
theorem eq_ff_of_bits {x : UInt8} (h : ∀ j, j < 8 → x.toBitVec.getLsbD j = true) : x = 0xFF := by
  apply UInt8.toBitVec_inj.mp
  apply BitVec.eq_of_getLsbD_eq
  intro i hi
  rw [h i hi]
  have hall : ∀ k : Fin 8, (0xFF : UInt8).toBitVec.getLsbD k.val = true := by decide
  exact (hall ⟨i, hi⟩).symm

theorem bit_of_ff {b : Bitmap} {i : Nat} (h : b.bits (i / 8) = 0xFF) : b.bit i = true := by
  unfold bit; rw [h]
  have hall : ∀ k : Fin 8, (0xFF : UInt8).toBitVec.getLsbD k.val = true := by decide
  exact hall ⟨i % 8, Nat.mod_lt _ (by decide)⟩

/-- **First fit.** With a clear bit in range, `bitmap_scan(btmp, 1)` is the
least one. -/
theorem scan_one {b : Bitmap} {i : Nat} (hi : i < b.size) (hc : b.bit i = false) :
    ∃ n : Nat, b.scan 1 = some n ∧ n ≤ i ∧ b.bit n = false ∧ ∀ j, j < n → b.bit j = true := by
  obtain ⟨-, h2, h3, h4⟩ := skipFull_spec b b.btmpBytesLen 0
  unfold scan
  generalize hk : b.skipFull 0 b.btmpBytesLen = k at *
  have hki : k ≤ i / 8 := by
    by_contra hlt
    have := bit_of_ff (b := b) (i := i) (h3 (i / 8) (Nat.zero_le _) (by omega))
    rw [this] at hc; cases hc
  have hkl : k < b.btmpBytesLen := by unfold size at hi; omega
  rw [if_pos hkl, if_pos rfl]
  have hne := h4 (by omega)
  obtain ⟨-, s2, s3, s4⟩ := skipSet_spec (b.bits k) 8 0
  generalize hm : skipSet (b.bits k) 0 8 = m at *
  have hm8 : m < 8 := by
    by_contra hge
    exact hne (eq_ff_of_bits fun j hj => s3 j (Nat.zero_le _) (by omega))
  have hd : (k * 8 + m) / 8 = k := by omega
  have hmod : (k * 8 + m) % 8 = m := by omega
  refine ⟨k * 8 + m, rfl, ?_, ?_, ?_⟩
  · by_contra hlt
    have hik : i / 8 = k := by omega
    have := s3 (i % 8) (Nat.zero_le _) (by omega)
    unfold bit at hc; rw [hik, this] at hc; cases hc
  · unfold bit; rw [hd, hmod]; exact s4 (by omega)
  · intro j hj
    rcases Nat.lt_or_ge (j / 8) k with hlt | hge
    · exact bit_of_ff (h3 _ (Nat.zero_le _) hlt)
    · have hjk : j / 8 = k := by omega
      unfold bit; rw [hjk]; exact s3 _ (Nat.zero_le _) (by omega)

/-- With every bit set, `bitmap_scan` stops at its ASSERT. -/
theorem scan_full {b : Bitmap} (h : ∀ i, i < b.size → b.bit i = true) (cnt : Nat) :
    b.scan cnt = none := by
  obtain ⟨-, h2, -, h4⟩ := skipFull_spec b b.btmpBytesLen 0
  unfold scan
  rw [if_neg]
  intro hlt
  apply h4 (by omega)
  apply eq_ff_of_bits
  intro j hj
  have := h (b.skipFull 0 b.btmpBytesLen * 8 + j) (by unfold size; omega)
  unfold bit at this
  rwa [show (b.skipFull 0 b.btmpBytesLen * 8 + j) / 8 = b.skipFull 0 b.btmpBytesLen by omega,
    show (b.skipFull 0 b.btmpBytesLen * 8 + j) % 8 = j by omega] at this

/-! ## Runs of clear bits -/

theorem mask_and : ∀ (x : BitVec 8) (m : Fin 8),
    (x &&& BitVec.ofNat 8 (1 <<< m.val) != 0#8) = x.getLsbD m.val := by decide +kernel

theorem scanTest_eq (b : Bitmap) (i : Nat) : b.scanTest i = b.bit i := by
  have hm := mask_and (b.bits (i / 8)).toBitVec ⟨i % 8, Nat.mod_lt _ (by decide)⟩
  have hall : ∀ k : Fin 8, (1 <<< UInt8.ofNat k.val : UInt8).toBitVec = BitVec.ofNat 8 (1 <<< k.val) := by
    decide
  have hk := hall ⟨i % 8, Nat.mod_lt _ (by decide)⟩
  unfold scanTest bit
  rw [← hm, ← hk, ← UInt8.toBitVec_and]
  by_cases h : b.bits (i / 8) &&& 1 <<< UInt8.ofNat (i % 8) = 0
  · rw [h]
    rfl
  · have hne : (b.bits (i / 8) &&& 1 <<< UInt8.ofNat (i % 8)).toBitVec ≠ 0#8 := fun hb =>
      h (UInt8.toBitVec_inj.mp hb)
    rw [bne_iff_ne.2 h, bne_iff_ne.2 hne]

/-- The run that the loop reports is clear, and only its last bit can be the
one behind the map. -/
theorem scanRun_clear (b : Bitmap) (cnt : Nat) : ∀ (bitLeft nextBit count : Nat) (i : Int),
    b.scanRun cnt bitLeft nextBit count = i → i ≠ -1 → count ≤ nextBit →
    (∀ j, j < count → b.bit (nextBit - 1 - j) = false) →
    ∃ n : Nat, i = n ∧ n + cnt ≤ nextBit + bitLeft ∧ ∀ j, n ≤ j → j < n + cnt → b.bit j = false := by
  intro bitLeft
  induction bitLeft with
  | zero =>
    intro nextBit count i h hne _ _
    exact absurd h.symm hne
  | succ bitLeft ih =>
    intro nextBit count i h hne hle hc
    unfold scanRun at h
    simp only [scanTest_eq] at h
    obtain ⟨c, hcd, hcle, hc'⟩ : ∃ c, (if b.bit nextBit then 0 else count + 1) = c ∧ c ≤ nextBit + 1 ∧
        ∀ j, j < c → b.bit (nextBit + 1 - 1 - j) = false := by
      cases hb : b.bit nextBit with
      | true => exact ⟨0, rfl, Nat.zero_le _, fun j hj => absurd hj (Nat.not_lt_zero j)⟩
      | false =>
        refine ⟨count + 1, rfl, by omega, fun j hj => ?_⟩
        cases j with
        | zero => exact hb
        | succ j =>
          have hj' := hc j (by omega)
          rwa [show nextBit + 1 - 1 - (j + 1) = nextBit - 1 - j by omega]
    rw [hcd] at h
    split at h
    · rename_i hcnt
      subst hcnt
      refine ⟨nextBit + 1 - c, by omega, by omega, fun j hj1 hj2 => ?_⟩
      have hj' := hc' (nextBit - j) (by omega)
      rwa [show nextBit + 1 - 1 - (nextBit - j) = j by omega] at hj'
    · obtain ⟨n, h1, h2, h3⟩ := ih (nextBit + 1) c i h hne hcle hc'
      exact ⟨n, h1, by omega, h3⟩

/-- What `bitmap_scan` reports is clear. -/
theorem scan_clear {b : Bitmap} {cnt : Nat} {i : Int} (h : b.scan cnt = some i) (hne : i ≠ -1) :
    ∃ n : Nat, i = n ∧ n + cnt ≤ b.size + 1 ∧ ∀ j, n ≤ j → j < n + cnt → b.bit j = false := by
  obtain ⟨-, h2, h3, h4⟩ := skipFull_spec b b.btmpBytesLen 0
  unfold scan at h
  generalize hk : b.skipFull 0 b.btmpBytesLen = k at *
  by_cases hkl : k < b.btmpBytesLen
  · rw [if_pos hkl] at h
    have hne' := h4 (by omega)
    obtain ⟨-, s2, s3, s4⟩ := skipSet_spec (b.bits k) 8 0
    generalize hm : skipSet (b.bits k) 0 8 = m at *
    have hm8 : m < 8 := by
      by_contra hge
      exact hne' (eq_ff_of_bits fun j hj => s3 j (Nat.zero_le _) (by omega))
    have hbit : b.bit (k * 8 + m) = false := by
      unfold bit
      rw [show (k * 8 + m) / 8 = k by omega, show (k * 8 + m) % 8 = m by omega]
      exact s4 (by omega)
    by_cases hcnt : cnt = 1
    · rw [if_pos hcnt] at h
      subst hcnt
      refine ⟨k * 8 + m, (Option.some.inj h).symm, by unfold size; omega, fun j hj1 hj2 => ?_⟩
      rwa [show j = k * 8 + m by omega]
    · rw [if_neg hcnt] at h
      obtain ⟨n, h1, h2, h3⟩ := scanRun_clear b cnt _ _ _ i (Option.some.inj h) hne (by omega)
        (fun j hj => by rwa [show k * 8 + m + 1 - 1 - j = k * 8 + m by omega])
      exact ⟨n, h1, by unfold size; omega, h3⟩
  · rw [if_neg hkl] at h
    cases h

/-- One bit lies in the map. -/
theorem scan_one_lt {b : Bitmap} {i : Int} (h : b.scan 1 = some i) :
    ∃ n : Nat, i = n ∧ n < b.size ∧ b.bit n = false := by
  by_cases hex : ∃ j, j < b.size ∧ b.bit j = false
  · obtain ⟨j, hj, hb⟩ := hex
    obtain ⟨n, hn, hle, hc, -⟩ := scan_one hj hb
    rw [hn] at h
    exact ⟨n, (Option.some.inj h).symm, by omega, hc⟩
  · have hfull := scan_full (b := b) (fun j hj => by
      by_contra hb
      exact hex ⟨j, hj, by simpa using hb⟩) 1
    rw [hfull] at h
    cases h

/-- Before a run of clear bits the loop finds one that starts there at the
latest. -/
theorem scanRun_low {b : Bitmap} {m cnt : Nat} (hlow : ∀ j, m ≤ j → j < m + cnt → b.bit j = false) :
    ∀ (bitLeft nextBit count start : Nat), start + count = nextBit → count < cnt → start ≤ m →
      m + cnt ≤ nextBit + bitLeft →
      ∃ n : Nat, b.scanRun cnt bitLeft nextBit count = n ∧ n ≤ m := by
  intro bitLeft
  induction bitLeft with
  | zero =>
    intro nextBit count start hst hcnt hle hroom
    omega
  | succ bitLeft ih =>
    intro nextBit count start hst hcnt hle hroom
    unfold scanRun
    simp only [scanTest_eq]
    cases hb : b.bit nextBit with
    | true =>
      have hlt : nextBit < m := by
        by_contra hge
        rw [hlow nextBit (by omega) (by omega)] at hb
        cases hb
      rw [if_pos rfl, if_neg (by omega)]
      exact ih (nextBit + 1) 0 (nextBit + 1) (by omega) (by omega) (by omega) (by omega)
    | false =>
      simp only [Bool.false_eq_true, if_false]
      by_cases heq : count + 1 = cnt
      · rw [if_pos heq]
        exact ⟨start, by omega, hle⟩
      · rw [if_neg heq]
        exact ih (nextBit + 1) (count + 1) start (by omega) (by omega) hle (by omega)

/-- Where there is a run of clear bits, the scan succeeds; the last bit may be
the one behind the map. -/
theorem scan_low_past {b : Bitmap} {m cnt : Nat} (hlow : ∀ j, m ≤ j → j < m + cnt → b.bit j = false) (hcnt : 1 ≤ cnt)
    (hm : m < b.size) (hroom : m + cnt ≤ b.size + 1) : ∃ n : Nat, b.scan cnt = some (n : Int) ∧ n ≤ m := by
  obtain ⟨n, hn, hle, hc, -⟩ := scan_one (b := b) hm (hlow m (Nat.le_refl m) (by omega))
  by_cases h1 : cnt = 1
  · rw [h1]
    exact ⟨n, hn, hle⟩
  · unfold scan at hn ⊢
    simp only at hn ⊢
    split at hn
    · rename_i hlt
      rw [if_pos trivial] at hn
      rw [if_pos hlt, if_neg h1]
      generalize hs : b.skipFull 0 b.btmpBytesLen * 8 + skipSet (b.bits (b.skipFull 0 b.btmpBytesLen)) 0 8 = start at *
      have hns : (start : Int) = n := Option.some.inj hn
      obtain ⟨k, hk, hkle⟩ := scanRun_low hlow (b.btmpBytesLen * 8 - start) (start + 1) 1 start rfl
        (by omega) (by omega) (by unfold size at hm hroom; omega)
      exact ⟨k, by rw [hk], hkle⟩
    · exact absurd hn (by simp)

theorem scan_low {b : Bitmap} {m cnt : Nat} (hlow : ∀ j, m ≤ j → j < m + cnt → b.bit j = false) (hcnt : 1 ≤ cnt)
    (hroom : m + cnt ≤ b.size) : ∃ n : Nat, b.scan cnt = some (n : Int) ∧ n ≤ m :=
  scan_low_past hlow hcnt (by omega) (by omega)

/-! ## The update -/

@[simp] theorem set_btmpBytesLen (b : Bitmap) (i : Nat) (v : Bool) :
    (b.set i v).btmpBytesLen = b.btmpBytesLen := rfl

@[simp] theorem set_size (b : Bitmap) (i : Nat) (v : Bool) : (b.set i v).size = b.size := rfl

theorem mask_bit : ∀ m k : Fin 8,
    (1 <<< UInt8.ofNat m.val : UInt8).toBitVec.getLsbD k.val = decide (k = m) := by decide

/-- `bitmap_set` changes bit `i` and nothing else. -/
theorem bit_set (b : Bitmap) (i j : Nat) (v : Bool) :
    (b.set i v).bit j = if j = i then v else b.bit j := by
  have hm := mask_bit ⟨i % 8, Nat.mod_lt _ (by decide)⟩ ⟨j % 8, Nat.mod_lt _ (by decide)⟩
  simp only [Fin.mk.injEq] at hm
  have hj8 : j % 8 < 8 := Nat.mod_lt _ (by decide)
  unfold bit set
  by_cases hb : j / 8 = i / 8
  · simp only [hb, if_true]
    have hji : j = i ↔ j % 8 = i % 8 := by omega
    cases v
    · simp only [Bool.false_eq_true, if_false, UInt8.toBitVec_and, UInt8.toBitVec_not,
        BitVec.getLsbD_and, BitVec.getLsbD_not, hm, hj8, decide_true, Bool.true_and]
      by_cases h : j % 8 = i % 8
      · simp [hji, h]
      · simp [hji, h]
    · simp only [if_true, UInt8.toBitVec_or, BitVec.getLsbD_or, hm]
      by_cases h : j % 8 = i % 8
      · simp [hji, h]
      · simp [hji, h]
  · have hji : j ≠ i := by rintro rfl; exact hb rfl
    simp only [if_neg hb, if_neg hji]

theorem bit_set_self (b : Bitmap) (i : Nat) (v : Bool) : (b.set i v).bit i = v := by
  rw [bit_set, if_pos rfl]

theorem bit_set_ne (b : Bitmap) {i j : Nat} (v : Bool) (h : j ≠ i) :
    (b.set i v).bit j = b.bit j := by rw [bit_set, if_neg h]

/-- A bitmap is its length and its bits. -/
theorem eq_of_bits {b c : Bitmap} (hlen : b.btmpBytesLen = c.btmpBytesLen) (hbit : ∀ i, b.bit i = c.bit i) : b = c := by
  have hbytes : b.bits = c.bits := by
    funext k
    refine UInt8.toBitVec_inj.mp (BitVec.eq_of_getLsbD_eq fun j hj => ?_)
    have h := hbit (8 * k + j)
    unfold bit at h
    rwa [show (8 * k + j) / 8 = k by omega, show (8 * k + j) % 8 = j by omega] at h
  cases b
  cases c
  exact congr (congrArg Bitmap.mk hlen) hbytes

/-- What is taken and given back is as it was. -/
theorem set_back {b : Bitmap} {i : Nat} (hc : b.bit i = false) : (b.set i true).set i false = b := by
  refine eq_of_bits rfl fun j => ?_
  by_cases hj : j = i
  · rw [hj, bit_set_self, hc]
  · rw [bit_set_ne _ _ hj, bit_set_ne _ _ hj]

/-! ## Counting -/

theorem free_pos {b : Bitmap} {i : Nat} (hi : i < b.size) (hc : b.bit i = false) : 0 < b.free :=
  List.countP_pos_iff.mpr ⟨i, List.mem_range.mpr hi, by simp [hc]⟩

theorem exists_of_free_pos {b : Bitmap} (h : 0 < b.free) : ∃ i, i < b.size ∧ b.bit i = false := by
  obtain ⟨i, hi, hb⟩ := List.countP_pos_iff.mp h
  exact ⟨i, List.mem_range.mp hi, by simpa using hb⟩

/-- Two predicates that differ at one place of a range. -/
theorem countP_range_update {p q : Nat → Bool} {i : Nat} (hp : p i = true) (hq : q i = false)
    (h : ∀ j, j ≠ i → q j = p j) : ∀ n,
      (List.range n).countP p = (List.range n).countP q + if i < n then 1 else 0
  | 0 => by simp
  | n + 1 => by
    rw [List.range_succ, List.countP_append, List.countP_append, countP_range_update hp hq h n]
    by_cases hn : n = i
    · subst hn; simp [hp, hq]
    · simp only [List.countP_singleton, h n hn]
      by_cases hlt : i < n
      · have h1 : i < n + 1 := by omega
        simp only [hlt, h1, if_true]; omega
      · have h1 : ¬ i < n + 1 := by omega
        simp only [hlt, h1, if_false]; omega

/-- Clear bits are counted. -/
theorem card_le_free {b : Bitmap} {S : Finset Nat} (h : ∀ i, i ∈ S → i < b.size ∧ b.bit i = false) : S.card ≤ b.free := by
  have hsub : S ⊆ ((List.range b.size).filter fun i => !b.bit i).toFinset := fun i hi => by
    obtain ⟨hlt, hc⟩ := h i hi
    rw [List.mem_toFinset, List.mem_filter, List.mem_range, hc]
    exact ⟨hlt, rfl⟩
  unfold free
  rw [List.countP_eq_length_filter]
  exact le_trans (Finset.card_le_card hsub) (List.toFinset_card_le _)

theorem card_add_free_le {b : Bitmap} {S : Finset Nat} (h : ∀ i, i ∈ S → i < b.size ∧ b.bit i = true) :
    S.card + b.free ≤ b.size := by
  have hsub : S ⊆ ((List.range b.size).filter fun i => b.bit i).toFinset := fun i hi => by
    obtain ⟨hlt, hc⟩ := h i hi
    rw [List.mem_toFinset, List.mem_filter, List.mem_range]
    exact ⟨hlt, hc⟩
  have hle := le_trans (Finset.card_le_card hsub) (List.toFinset_card_le _)
  have hall := List.length_eq_countP_add_countP (fun i => b.bit i) (l := List.range b.size)
  rw [List.length_range] at hall
  rw [← List.countP_eq_length_filter] at hle
  unfold free
  simp only [Bool.not_eq_true, Bool.decide_eq_false] at hall
  omega

/-- Bits that get set are clear bits less. -/
theorem free_add_le {b c : Bitmap} {S : Finset Nat} (hsize : c.size = b.size)
    (hc : ∀ i, i < b.size → c.bit i = false → b.bit i = false)
    (hS : ∀ i, i ∈ S → i < b.size ∧ b.bit i = false ∧ c.bit i = true) : c.free + S.card ≤ b.free := by
  have hcard : ((List.range c.size).filter fun i => !c.bit i).toFinset.card = c.free := by
    unfold free
    rw [List.toFinset_card_of_nodup (List.nodup_range.filter _), List.countP_eq_length_filter]
  have hdisj : Disjoint ((List.range c.size).filter fun i => !c.bit i).toFinset S := by
    refine Finset.disjoint_left.2 fun i hi hi' => ?_
    rw [List.mem_toFinset, List.mem_filter, (hS i hi').2.2] at hi
    cases hi.2
  rw [← hcard, ← Finset.card_union_of_disjoint hdisj]
  refine card_le_free fun i hi => ?_
  rcases Finset.mem_union.1 hi with hi | hi
  · rw [List.mem_toFinset, List.mem_filter, List.mem_range, hsize] at hi
    exact ⟨hi.1, hc i hi.1 (by simpa using hi.2)⟩
  · exact ⟨(hS i hi).1, (hS i hi).2.1⟩

/-- Setting a clear bit leaves one clear bit less. -/
theorem free_set {b : Bitmap} {i : Nat} (hi : i < b.size) (hc : b.bit i = false) :
    (b.set i true).free + 1 = b.free := by
  have := countP_range_update (p := fun j => !b.bit j) (q := fun j => !(b.set i true).bit j) (i := i)
    (by simp [hc]) (by simp [bit_set_self]) (fun j hj => by simp [bit_set_ne b true hj]) b.size
  rw [if_pos hi] at this
  unfold free
  rw [set_size]
  exact this.symm

/-- At most one bit is set. -/
theorem free_set_le (b : Bitmap) (i : Nat) (v : Bool) : b.free ≤ (b.set i v).free + 1 := by
  by_cases h : i < b.size ∧ b.bit i = false ∧ v = true
  · obtain ⟨hi, hc, rfl⟩ := h
    rw [free_set hi hc]
  · refine Nat.le_succ_of_le (List.countP_mono_left fun j hj hf => ?_)
    rw [bit_set]
    split
    · rename_i hji
      subst hji
      have hj' : j < b.size := List.mem_range.1 hj
      cases v with
      | true => exact absurd ⟨hj', by simpa using hf, rfl⟩ h
      | false => rfl
    · exact hf

end Bitmap

end Enix.Kernel
