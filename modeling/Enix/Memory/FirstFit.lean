import Enix.Memory.Refs

/-!
# First fit (`lib/bitmap.c`)

`bitmap_scan` counts in `uint32_t` and reports an `int`. `scan32` has both; on a
bitmap whose bits a `uint32_t` can name it is `Bitmap.scan`, the result cut to
an `int` (`scan32_eq`).

* `scan32_iff`: what it reports is a clear run of the map, and -1 without a
  look behind the map where there is none, if and only if the map has such a
  run, or has a clear bit and does not end in `cnt - 1` clear bits.
* `scan32_firstFit`: where there is a clear run the least one is found, and the
  loop of `vaddr_get` takes it and nothing else.
-/
set_option autoImplicit false

namespace Enix.Kernel

/-- What an `int` holds of `z`. -/
def toInt32 (z : Int) : Int := (z + 2147483648) % 4294967296 - 2147483648

/-- What a `uint32_t` holds of `z`. -/
def toUint32 (z : Int) : Nat := (z % 4294967296).toNat

theorem toInt32_eq {z : Int} (h₁ : -2147483648 ≤ z) (h₂ : z < 2147483648) : toInt32 z = z := by
  unfold toInt32
  omega

theorem toUint32_eq {n : Nat} (h : n < 4294967296) : toUint32 n = n := by
  unfold toUint32
  omega

/-- An `int` that is not negative holds the number itself. -/
theorem toInt32_nonneg {n s : Nat} (hn : n < 4294967296) (h : toInt32 n = s) : s = n := by
  unfold toInt32 at h
  omega

/-- What is below 2^32 - 1 is not taken for -1. -/
theorem toInt32_ne_neg {n : Nat} (h : n < 4294967295) : toInt32 n ≠ -1 := by
  unfold toInt32
  omega

namespace Bitmap

/-- The run loop of `bitmap_scan`, in 32 bits.
mirrors src/lib/bitmap.c:70-83 -/
def scanRun32 (b : Bitmap) (cnt : Nat) : (bitLeft nextBit count : Nat) → Int
  | 0, _, _ => -1
  | bitLeft + 1, nextBit, count =>
    let count := if b.scanTest nextBit then 0 else toUint32 (count + 1)
    if count = cnt then toInt32 ((nextBit : Int) - cnt + 1)
    else b.scanRun32 cnt bitLeft (toUint32 (nextBit + 1)) count

/-- mirrors src/lib/bitmap.c:40-86 (`bitmap_scan`), in 32 bits -/
def scan32 (b : Bitmap) (cnt : Nat) : Option Int :=
  let idxByte := b.skipFull 0 b.btmpBytesLen
  if idxByte < b.btmpBytesLen then
    let bitIdxStart := toInt32 (idxByte * 8 + skipSet (b.bits idxByte) 0 8 : Nat)
    if cnt = 1 then some bitIdxStart
    else some (b.scanRun32 cnt (toUint32 ((b.btmpBytesLen * 8 : Nat) - bitIdxStart))
      (toUint32 (bitIdxStart + 1)) 1)
  else none

/-- The `cnt` bits from `s` on are clear, and in the map. -/
def ClearRun (b : Bitmap) (s cnt : Nat) : Prop :=
  s + cnt ≤ b.size ∧ ∀ i, s ≤ i → i < s + cnt → b.bit i = false

/-- The same bits; behind the map the memory may differ. -/
def Same (b c : Bitmap) : Prop :=
  c.btmpBytesLen = b.btmpBytesLen ∧ ∀ i, i < b.btmpBytesLen → c.bits i = b.bits i

section
variable {b c : Bitmap} {cnt s i n : Nat}

theorem Same.bit (h : b.Same c) (hi : i < b.size) : c.bit i = b.bit i := by
  unfold Bitmap.bit
  unfold size at hi
  rw [h.2 (i / 8) (by omega)]

theorem Same.size (h : b.Same c) : c.size = b.size := by
  unfold Bitmap.size
  rw [h.1]

theorem Same.clearRun (h : b.Same c) (hr : c.ClearRun s cnt) : b.ClearRun s cnt := by
  obtain ⟨hroom, hclear⟩ := hr
  rw [h.size] at hroom
  refine ⟨hroom, fun i h₁ h₂ => ?_⟩
  rw [← h.bit (by omega)]
  exact hclear i h₁ h₂

/-! ## The 32 bits -/

/-- As long as the loop stays in numbers of 32 bits. -/
theorem scanRun32_eq (b : Bitmap) (cnt : Nat) : ∀ bitLeft nextBit count, count ≤ nextBit →
    nextBit + bitLeft < 4294967296 →
    b.scanRun32 cnt bitLeft nextBit count = toInt32 (b.scanRun cnt bitLeft nextBit count) := by
  intro bitLeft
  induction bitLeft with
  | zero =>
    intro nextBit count _ _
    rfl
  | succ bitLeft ih =>
    intro nextBit count hle hlt
    have hcount : toUint32 ((count : Int) + 1) = count + 1 := toUint32_eq (n := count + 1) (by omega)
    have hnext : toUint32 ((nextBit : Int) + 1) = nextBit + 1 := toUint32_eq (n := nextBit + 1) (by omega)
    unfold scanRun32 scanRun
    simp only [hcount, hnext]
    cases hb : b.scanTest nextBit with
    | true =>
      simp only [if_true]
      by_cases hc : 0 = cnt
      · rw [if_pos hc, if_pos hc]
      · rw [if_neg hc, if_neg hc]
        exact ih (nextBit + 1) 0 (by omega) (by omega)
    | false =>
      simp only [Bool.false_eq_true, if_false]
      by_cases hc : count + 1 = cnt
      · rw [if_pos hc, if_pos hc]
      · rw [if_neg hc, if_neg hc]
        exact ih (nextBit + 1) (count + 1) (by omega) (by omega)

/-- The bits of the map have numbers of 32 bits, so only the result is cut. -/
theorem scan32_eq (hb : b.size < 4294967296) (cnt : Nat) : b.scan32 cnt = (b.scan cnt).map toInt32 := by
  obtain ⟨-, h2, -, -⟩ := skipFull_spec b b.btmpBytesLen 0
  unfold size at hb
  unfold scan32 scan
  generalize hk : b.skipFull 0 b.btmpBytesLen = k at *
  by_cases hkl : k < b.btmpBytesLen
  · have hm := (skipSet_spec (b.bits k) 8 0).2.1
    simp only [if_pos hkl]
    generalize skipSet (b.bits k) 0 8 = m at hm ⊢
    have hstart : k * 8 + m < 4294967296 := by omega
    by_cases hc : cnt = 1
    · rw [if_pos hc, if_pos hc, Option.map_some]
    · have hleft : toUint32 ((b.btmpBytesLen * 8 : Nat) - toInt32 (k * 8 + m : Nat)) =
          b.btmpBytesLen * 8 - (k * 8 + m) := by
        unfold toUint32 toInt32
        omega
      have hnext : toUint32 (toInt32 (k * 8 + m : Nat) + 1) = k * 8 + m + 1 := by
        unfold toUint32 toInt32
        omega
      rw [if_neg hc, if_neg hc, Option.map_some, hleft, hnext, scanRun32_eq b cnt _ _ _ (by omega) (by omega)]
  · simp only [if_neg hkl, Option.map_none]

/-! ## Where there is a run -/

/-- The least run is found. -/
theorem scan_least (hcnt : 1 ≤ cnt) (h : b.ClearRun s cnt) :
    ∃ n : Nat, b.scan cnt = some (n : Int) ∧ b.ClearRun n cnt ∧ ∀ m, b.ClearRun m cnt → n ≤ m := by
  obtain ⟨n, hn, hle⟩ := scan_low h.2 hcnt h.1
  have hleast : ∀ m, b.ClearRun m cnt → n ≤ m := fun m hm => by
    obtain ⟨n', hn', hle'⟩ := scan_low hm.2 hcnt hm.1
    rw [hn] at hn'
    have := Option.some.inj hn'
    omega
  obtain ⟨n', hn', -, hclear⟩ := scan_clear hn (by omega)
  obtain rfl : n = n' := by omega
  exact ⟨n, hn, ⟨by have := h.1; omega, hclear⟩, hleast⟩

/-- The `cnt - 1` last bits of the map are clear: with a clear bit behind them
they are taken for a run. -/
def EndsClear (b : Bitmap) (cnt : Nat) : Prop :=
  ∃ s, s + cnt = b.size + 1 ∧ ∀ i, s ≤ i → i < b.size → b.bit i = false

/-- Without a run in the map, a report is the end of the map and the bit
behind it. -/
theorem scan_behind {z : Int} (hrun : ∀ s, ¬ b.ClearRun s cnt) (h : b.scan cnt = some z) (hz : z ≠ -1) :
    b.EndsClear cnt ∧ ∃ n : Nat, z = n ∧ n + cnt = b.size + 1 := by
  obtain ⟨n, hn, hroom, hclear⟩ := scan_clear h hz
  have heq : n + cnt = b.size + 1 := by
    by_contra hne
    exact hrun n ⟨by omega, hclear⟩
  exact ⟨⟨n, heq, fun i h₁ h₂ => hclear i h₁ (by omega)⟩, n, hn, heq⟩

/-- With a clear bit in the map the scan returns. -/
theorem scan_returns (hi : i < b.size) (hc : b.bit i = false) (cnt : Nat) : ∃ z, b.scan cnt = some z := by
  obtain ⟨n, hn, -⟩ := scan_one hi hc
  unfold scan at hn ⊢
  simp only at hn ⊢
  split at hn
  · rename_i hlt
    rw [if_pos hlt]
    split
    · exact ⟨_, rfl⟩
    · exact ⟨_, rfl⟩
  · cases hn

/-- The map with a clear bit behind it. -/
theorem same_behind (b : Bitmap) : b.Same (b.set b.size false) := by
  refine ⟨rfl, fun i hi => ?_⟩
  unfold set size
  have hne : i ≠ 8 * b.btmpBytesLen / 8 := by omega
  simp only [if_neg hne]

/-- A run that needs one more bit than the map has finds it behind the map. -/
theorem scan_past (hc : i < b.size ∧ b.bit i = false) (hcnt : 1 ≤ cnt) (hend : b.EndsClear cnt) (hrun : ∀ s, ¬ b.ClearRun s cnt) :
    ∃ s : Nat, (b.set b.size false).scan cnt = some (s : Int) := by
  obtain ⟨s, hs, hclear⟩ := hend
  have hcnt1 : cnt ≠ 1 := by
    rintro rfl
    refine hrun i ⟨hc.1, fun j h₁ h₂ => ?_⟩
    obtain rfl : j = i := by omega
    exact hc.2
  have hsame := same_behind b
  have hlow : ∀ j, s ≤ j → j < s + cnt → (b.set b.size false).bit j = false := fun j h₁ h₂ => by
    rw [bit_set]
    by_cases hj : j = b.size
    · rw [if_pos hj]
    · rw [if_neg hj]
      exact hclear j h₁ (by omega)
  obtain ⟨n, hn, -⟩ := scan_low_past hlow hcnt (by rw [hsame.size]; omega) (by rw [hsame.size]; omega)
  exact ⟨n, hn⟩

end

/-! ## When the scan can be trusted -/

/-- What the callers of `bitmap_scan` rely on. -/
structure ScanOk (b : Bitmap) (cnt : Nat) : Prop where
  found : ∀ s : Nat, b.scan32 cnt = some (s : Int) → b.ClearRun s cnt
  absent : (∀ s, ¬ b.ClearRun s cnt) → ∀ c, b.Same c → c.scan32 cnt = some (-1)

/-- With every bit set the ASSERT stops the kernel; with the last `cnt - 1`
bits clear the bit behind the map decides. -/
theorem scan32_iff (b : Bitmap) (cnt : Nat) (hb : b.size < 4294967296) (hcnt : 1 ≤ cnt) :
    b.ScanOk cnt ↔
      (∃ s, b.ClearRun s cnt) ∨ (∃ i, i < b.size ∧ b.bit i = false) ∧ ¬ b.EndsClear cnt := by
  constructor
  · intro h
    by_cases hrun : ∃ s, b.ClearRun s cnt
    · exact .inl hrun
    · have hrun' : ∀ s, ¬ b.ClearRun s cnt := fun s hs => hrun ⟨s, hs⟩
      have hclear : ∃ i, i < b.size ∧ b.bit i = false := by
        by_contra hfull
        have hret := h.absent hrun' b ⟨rfl, fun _ _ => rfl⟩
        rw [scan32_eq hb, scan_full (fun i hi => by
          by_contra hc
          exact hfull ⟨i, hi, by simpa using hc⟩) cnt] at hret
        cases hret
      refine .inr ⟨hclear, fun hend => ?_⟩
      -- a clear bit behind the map makes the run long enough
      obtain ⟨i, hi⟩ := hclear
      have hsame := same_behind b
      obtain ⟨s, hs⟩ := scan_past hi hcnt hend hrun'
      have hret := h.absent hrun' _ hsame
      rw [scan32_eq (by rw [hsame.size]; exact hb), hs, Option.map_some] at hret
      obtain ⟨-, n, hn, hroom⟩ := scan_behind (fun s hr => hrun' s (hsame.clearRun hr)) hs (by omega)
      rw [hsame.size] at hroom
      unfold size at hb hroom
      exact toInt32_ne_neg (by omega) (Option.some.inj hret)
  · rintro (⟨s, hs⟩ | ⟨⟨i, hi, hc⟩, hend⟩)
    · obtain ⟨n, hn, hrun, -⟩ := scan_least hcnt hs
      refine ⟨fun m hm => ?_, fun hno => absurd hs (hno s)⟩
      rw [scan32_eq hb, hn, Option.map_some] at hm
      have hlt : n < 4294967296 := by have := hrun.1; omega
      rwa [toInt32_nonneg hlt (Option.some.inj hm)]
    · refine ⟨fun m hm => ?_, fun hrun c hsame => ?_⟩
      · rw [scan32_eq hb] at hm
        obtain ⟨z, hz, hzm⟩ := Option.map_eq_some_iff.1 hm
        have hne : z ≠ -1 := by
          rintro rfl
          rw [toInt32_eq (by omega) (by omega)] at hzm
          omega
        obtain ⟨n, hn, hroom, hclear⟩ := scan_clear hz hne
        subst hn
        have hin : n + cnt ≤ b.size := by
          by_contra hout
          exact hend ⟨n, by omega, fun j h₁ h₂ => hclear j h₁ (by omega)⟩
        rw [toInt32_nonneg (by omega) hzm]
        exact ⟨hin, hclear⟩
      · obtain ⟨z, hz⟩ := scan_returns (b := c) (i := i) (by rw [hsame.size]; exact hi)
          (by rw [hsame.bit hi]; exact hc) cnt
        have hneg : z = -1 := by
          by_contra hne
          obtain ⟨⟨s, hs, hclear⟩, -⟩ := scan_behind (fun s hr => hrun s (hsame.clearRun hr)) hz hne
          rw [hsame.size] at hs hclear
          exact hend ⟨s, hs, fun j h₁ h₂ => by rw [← hsame.bit h₂]; exact hclear j h₁ h₂⟩
        rw [scan32_eq (by rw [hsame.size]; exact hb), hz, hneg]
        rfl

theorem scan32_iff_byte : Bitmap.ScanOk ⟨1, fun _ => 0⟩ 3 ↔
    (∃ s, Bitmap.ClearRun ⟨1, fun _ => 0⟩ s 3) ∨
      (∃ i, i < Bitmap.size ⟨1, fun _ => 0⟩ ∧ Bitmap.bit ⟨1, fun _ => 0⟩ i = false) ∧
        ¬ Bitmap.EndsClear ⟨1, fun _ => 0⟩ 3 :=
  scan32_iff ⟨1, fun _ => 0⟩ 3 (by decide) (by decide)

/-- A full byte stops at the ASSERT. Where only bit 7 of a byte is clear, two
bits are found at 7 if the byte behind is clear. -/
theorem scan32_full : ¬ Bitmap.ScanOk ⟨1, fun _ => 0xFF⟩ 1 ∧
    ¬ Bitmap.ScanOk ⟨1, fun i => if i = 0 then 0x7F else 0⟩ 2 := by
  constructor
  · intro h
    have hrun : ∀ s, ¬ Bitmap.ClearRun ⟨1, fun _ => 0xFF⟩ s 1 := fun s hs => by
      have hbit := hs.2 s (Nat.le_refl s) (Nat.lt_succ_self s)
      rw [bit_of_ff rfl] at hbit
      cases hbit
    exact absurd (h.absent hrun _ ⟨rfl, fun _ _ => rfl⟩) (by decide)
  · intro h
    have hrun := h.found 7 (by decide)
    exact absurd hrun.1 (by decide)

end Bitmap

end Enix.Kernel

namespace Enix.Memory
open Enix.Kernel

/-- The least clear run is found; the loop of `vaddr_get` sets its bits and no
other, and no later scan reports one of them. -/
theorem scan32_firstFit (b : Bitmap) (cnt : Nat) (hb : b.size < 2147483648) (hcnt : 1 ≤ cnt)
    (h : ∃ m, b.ClearRun m cnt) :
    ∃ n : Nat, b.scan32 cnt = some (n : Int) ∧ b.ClearRun n cnt ∧ (∀ m, b.ClearRun m cnt → n ≤ m) ∧
      (setRange b true n cnt).btmpBytesLen = b.btmpBytesLen ∧
      (∀ i, (setRange b true n cnt).bit i ≠ b.bit i ↔ n ≤ i ∧ i < n + cnt) ∧
      ∀ cnt' k : Nat, (setRange b true n cnt).scan32 cnt' = some (k : Int) →
        ∀ i, k ≤ i → i < k + cnt' → ¬ (n ≤ i ∧ i < n + cnt) := by
  obtain ⟨m, hm⟩ := h
  obtain ⟨n, hn, hrun, hleast⟩ := Bitmap.scan_least hcnt hm
  have hroom := hrun.1
  refine ⟨n, ?_, hrun, hleast, setRange_btmpBytesLen b true cnt n, fun i => ?_, fun cnt' k hk i h₁ h₂ hin => ?_⟩
  · rw [Bitmap.scan32_eq (by omega), hn, Option.map_some, toInt32_eq (by omega) (by omega)]
  · rw [bit_setRange]
    by_cases hi : n ≤ i ∧ i < n + cnt
    · rw [if_pos hi, hrun.2 i hi.1 hi.2]
      simp [hi]
    · rw [if_neg hi]
      simp [hi]
  · -- what is reported is clear, and the bits of the run are set
    have hsize : (setRange b true n cnt).size = b.size := setRange_size b true n cnt
    rw [Bitmap.scan32_eq (by rw [hsize]; omega)] at hk
    obtain ⟨z, hz, hzk⟩ := Option.map_eq_some_iff.1 hk
    have hne : z ≠ -1 := by
      rintro rfl
      rw [toInt32_eq (by omega) (by omega)] at hzk
      omega
    obtain ⟨k', rfl, hroom', hclear⟩ := Bitmap.scan_clear hz hne
    rw [hsize] at hroom'
    have hkk : k = k' := toInt32_nonneg (by omega) hzk
    have hbit := hclear i (by omega) (by omega)
    rw [bit_setRange, if_pos hin] at hbit
    cases hbit

theorem scan32_firstFit_three : ∃ n : Nat, Bitmap.scan32 ⟨2, fun _ => 0⟩ 3 = some (n : Int) ∧
    Bitmap.ClearRun ⟨2, fun _ => 0⟩ n 3 ∧ (∀ m, Bitmap.ClearRun ⟨2, fun _ => 0⟩ m 3 → n ≤ m) ∧
      (setRange ⟨2, fun _ => 0⟩ true n 3).btmpBytesLen = 2 ∧
      (∀ i, (setRange ⟨2, fun _ => 0⟩ true n 3).bit i ≠ Bitmap.bit ⟨2, fun _ => 0⟩ i ↔ n ≤ i ∧ i < n + 3) ∧
      ∀ cnt' k : Nat, (setRange ⟨2, fun _ => 0⟩ true n 3).scan32 cnt' = some (k : Int) →
        ∀ i, k ≤ i → i < k + cnt' → ¬ (n ≤ i ∧ i < n + 3) :=
  scan32_firstFit ⟨2, fun _ => 0⟩ 3 (by decide) (by decide)
    ⟨0, by decide, fun i _ hi => by
      have hall : ∀ i : Fin 3, Bitmap.bit ⟨2, fun _ => 0⟩ i.val = false := by decide
      exact hall ⟨i, by omega⟩⟩

end Enix.Memory
