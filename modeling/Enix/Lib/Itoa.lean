import Enix.Core.Bytes
import Mathlib.Data.List.GetD
import Mathlib.Data.Nat.Digits.Lemmas
import Mathlib.Logic.Function.Basic

/-!
# Numbers as text (`lib/stdio.c:10-26`)

`itoa` stores the last digit of a number, behind the others, which a call of its own
has stored by then: the cursor that all calls share moves on the way back.

* `itoa_run`: what is stored is the `numeral`.
* `itoa_canonical`: for 32-bit values the numeral is canonical, and no other value has it.
-/
set_option autoImplicit false

namespace Enix.Lib
open Enix.Core Function

/-- The digit `m` is stored at the cursor.
mirrors src/lib/stdio.c:18-25 -/
def putDigit (m : Nat) (r : Bytes × Nat) : Bytes × Nat :=
  if m < 10 then (update r.1 r.2 (UInt8.ofNat (m + 0x30)), r.2 + 1)
  else (update r.1 r.2 (UInt8.ofNat (m - 10 + 0x41)), r.2 + 1)

/-- No more than `fuel` calls are open at a time. `ptr` is `*buf_ptr_addr`.
mirrors src/lib/stdio.c:11-26 (`itoa`) -/
def itoa (base : Nat) : (fuel value : Nat) → (buf : Bytes) → (ptr : Nat) → Option (Bytes × Nat)
  | 0, _, _, _ => none
  | fuel + 1, value, buf, ptr =>
    let m := value % base
    let i := value / base
    (if i ≠ 0 then itoa base fuel i buf ptr else some (buf, ptr)).map (putDigit m)

/-! ## Numerals -/

/-- "0123456789ABCDEF" -/
def digitChars : List UInt8 :=
  [0x30, 0x31, 0x32, 0x33, 0x34, 0x35, 0x36, 0x37, 0x38, 0x39, 0x41, 0x42, 0x43, 0x44, 0x45, 0x46]

/-- The digits from the first one on; the digit of 0 is a zero. -/
def numeral (base value : Nat) : List UInt8 :=
  (if value = 0 then [0] else (Nat.digits base value).reverse).map fun m => digitChars.getD m 0

/-- The digits read from the first one on. -/
def reading (base : Nat) (l : List UInt8) : Nat := l.foldl (fun value c => value * base + digitChars.idxOf c) 0

structure Canonical (base value : Nat) (l : List UInt8) : Prop where
  digits : ∀ c ∈ l, c ∈ digitChars.take base
  lead : l.head? = some 0x30 → l = [0x30]
  ne_nil : l ≠ []
  reads : reading base l = value

/-- `l` is stored from `p` on. -/
def stored (buf : Bytes) (p : Nat) (l : List UInt8) : Bytes := splice buf p (fun i => l.getD i 0) l.length

section
variable {base value fuel p : Nat} {buf : Bytes} {c : UInt8} {l l' : List UInt8}

theorem digitChars_idxOf : ∀ m < 16, digitChars.idxOf (digitChars.getD m 0) = m := by decide

theorem digitChars_eq : ∀ m < 16, digitChars.getD m 0 = if m < 10 then UInt8.ofNat (m + 0x30) else UInt8.ofNat (m - 10 + 0x41) := by
  decide

theorem putDigit_eq {m : Nat} (hm : m < 16) (r : Bytes × Nat) : putDigit m r = (update r.1 r.2 (digitChars.getD m 0), r.2 + 1) := by
  unfold putDigit
  rw [digitChars_eq m hm]
  by_cases h10 : m < 10
  · rw [if_pos h10, if_pos h10]
  · rw [if_neg h10, if_neg h10]

/-- The last digit, behind the numeral of what is left. -/
theorem numeral_step (hb : 1 < base) (value : Nat) : numeral base value =
    (if value / base = 0 then [] else numeral base (value / base)) ++ [digitChars.getD (value % base) 0] := by
  unfold numeral
  by_cases h0 : value = 0
  · rw [h0, Nat.zero_div, Nat.zero_mod, if_pos rfl, if_pos rfl]
    rfl
  · rw [if_neg h0, Nat.digits_def' hb (Nat.pos_of_ne_zero h0), List.reverse_cons, List.map_append]
    by_cases hi : value / base = 0
    · rw [if_pos hi, hi, Nat.digits_zero]
      rfl
    · rw [if_neg hi, if_neg hi]
      rfl

theorem reading_snoc (base : Nat) (l : List UInt8) (c : UInt8) :
    reading base (l ++ [c]) = reading base l * base + digitChars.idxOf c := by
  unfold reading
  rw [List.foldl_append]
  rfl

theorem numeral_ne_nil (hb : 1 < base) (value : Nat) : numeral base value ≠ [] := by
  rw [numeral_step hb]
  exact List.append_ne_nil_of_right_ne_nil _ (List.cons_ne_nil _ _)

theorem reading_numeral (hb : 1 < base) (h16 : base ≤ 16) (value : Nat) : reading base (numeral base value) = value := by
  induction value using Nat.strongRecOn with
  | ind value ih =>
    have hm : digitChars.idxOf (digitChars.getD (value % base) 0) = value % base :=
      digitChars_idxOf _ (Nat.lt_of_lt_of_le (Nat.mod_lt _ (Nat.zero_lt_of_lt hb)) h16)
    rw [numeral_step hb, reading_snoc, hm]
    by_cases hi : value / base = 0
    · rw [if_pos hi, Nat.mod_eq_of_lt ((Nat.div_eq_zero_iff.1 hi).resolve_left (Nat.ne_of_gt (Nat.zero_lt_of_lt hb)))]
      show 0 * base + value = value
      rw [Nat.zero_mul, Nat.zero_add]
    · have hpos : 0 < value := Nat.pos_of_ne_zero fun hc => hi (hc ▸ Nat.zero_div base)
      rw [if_neg hi, ih _ (Nat.div_lt_self hpos hb)]
      exact Nat.div_add_mod' value base

theorem mem_numeral (hb : 1 < base) (h16 : base ≤ 16) (hc : c ∈ numeral base value) : c ∈ digitChars.take base := by
  unfold numeral at hc
  obtain ⟨m, hm, rfl⟩ := List.mem_map.1 hc
  have hlt : m < base := by
    by_cases h0 : value = 0
    · rw [if_pos h0, List.mem_singleton] at hm
      omega
    · rw [if_neg h0, List.mem_reverse] at hm
      exact Nat.digits_lt_base hb hm
  have hlen : m < digitChars.length := Nat.lt_of_lt_of_le hlt h16
  rw [List.getD_eq_getElem _ _ hlen]
  exact List.mem_take_iff_getElem.2 ⟨m, Nat.lt_min.2 ⟨hlt, hlen⟩, rfl⟩

/-- The first digit of a number that is not 0 is none. -/
theorem numeral_lead (hb : 1 < base) (h16 : base ≤ 16) (value : Nat) :
    (numeral base value).head? = some 0x30 → numeral base value = [0x30] := by
  intro hlead
  by_cases h0 : value = 0
  · rw [h0]
    rfl
  · have hne : Nat.digits base value ≠ [] := Nat.digits_ne_nil_iff_ne_zero.2 h0
    have hlast := Nat.getLast_digit_ne_zero base h0
    have hlt : (Nat.digits base value).getLast hne < 16 :=
      Nat.lt_of_lt_of_le (Nat.digits_lt_base hb (List.getLast_mem hne)) h16
    unfold numeral at hlead
    rw [if_neg h0, List.head?_map, List.head?_reverse, List.getLast?_eq_some_getLast hne, Option.map_some, Option.some.injEq] at hlead
    have hzero := digitChars_idxOf _ hlt
    rw [hlead] at hzero
    exact absurd hzero.symm hlast

theorem length_numeral_le {k : Nat} (hb : 1 < base) (hk : 0 < k) (h : value < base ^ k) : (numeral base value).length ≤ k := by
  unfold numeral
  rw [List.length_map]
  by_cases h0 : value = 0
  · rw [if_pos h0]
    exact hk
  · rw [if_neg h0, List.length_reverse]
    exact (Nat.digits_length_le_iff hb value).2 h

theorem numeral_canonical (hb : 1 < base) (h16 : base ≤ 16) (value : Nat) : Canonical base value (numeral base value) :=
  ⟨fun _ hc => mem_numeral hb h16 hc, numeral_lead hb h16 value, numeral_ne_nil hb value, reading_numeral hb h16 value⟩

theorem numeral_inj {value' : Nat} (hb : 1 < base) (h16 : base ≤ 16) (h : numeral base value = numeral base value') :
    value = value' := by
  rw [← reading_numeral hb h16 value, h, reading_numeral hb h16]

/-! ## Storing -/

theorem stored_nil (buf : Bytes) (p : Nat) : stored buf p [] = buf := by
  funext a
  exact splice_out (Nat.lt_or_ge a p)

theorem stored_snoc (buf : Bytes) (p : Nat) (l : List UInt8) (c : UInt8) :
    update (stored buf p l) (p + l.length) c = stored buf p (l ++ [c]) := by
  funext a
  unfold stored
  by_cases ha : a = p + l.length
  · rw [ha, update_self, splice_in (by omega) (by rw [List.length_append, List.length_singleton]; omega), Nat.add_sub_cancel_left,
      List.getD_append_right _ _ _ _ (Nat.le_refl _), Nat.sub_self]
    rfl
  · rw [update_of_ne ha]
    by_cases hin : p ≤ a ∧ a < p + l.length
    · rw [splice_in hin.1 hin.2, splice_in hin.1 (by rw [List.length_append]; omega), List.getD_append _ _ _ _ (by omega)]
    · rw [splice_out (by omega), splice_out (by rw [List.length_append, List.length_singleton]; omega)]

/-! ## `itoa` -/

/-- By induction on the calls that may be open. -/
theorem itoa_run (hb : 1 < base) (h16 : base ≤ 16) (fuel : Nat) : ∀ {value : Nat}, 0 < fuel → value < base ^ fuel →
    itoa base fuel value buf p = some (stored buf p (numeral base value), p + (numeral base value).length) := by
  induction fuel with
  | zero => exact fun h => absurd h (Nat.lt_irrefl 0)
  | succ fuel ih =>
    intro value _ hlt
    have hm : value % base < 16 := Nat.lt_of_lt_of_le (Nat.mod_lt _ (Nat.zero_lt_of_lt hb)) h16
    have hrest : value / base < base ^ fuel := Nat.div_lt_of_lt_mul (by rwa [Nat.pow_succ, Nat.mul_comm] at hlt)
    have hfirst : (if value / base ≠ 0 then itoa base fuel (value / base) buf p else some (buf, p)) =
        some (stored buf p (if value / base = 0 then [] else numeral base (value / base)),
          p + (if value / base = 0 then [] else numeral base (value / base)).length) := by
      by_cases hi : value / base = 0
      · rw [if_neg (not_not_intro hi), if_pos hi, stored_nil]
        rfl
      · have hpos : 0 < fuel := by
          by_contra hc
          rw [Nat.eq_zero_of_not_pos hc, Nat.pow_zero] at hrest
          exact hi (Nat.lt_one_iff.1 hrest)
        rw [if_pos hi, if_neg hi]
        exact ih hpos hrest
    unfold itoa
    dsimp only
    rw [hfirst, Option.map_some, putDigit_eq hm, numeral_step hb value, ← stored_snoc, List.length_append]
    rfl

end

/-- **Integer to ASCII**, in base 10 or 16. -/
theorem itoa_canonical (base : Nat) (hb : base = 10 ∨ base = 16) :
    (∀ (value : BitVec 32) (buf : Bytes) (ptr : Nat), Canonical base value.toNat (numeral base value.toNat) ∧
      (numeral base value.toNat).length ≤ (if base = 10 then 10 else 8) ∧
      ∀ fuel, (if base = 10 then 10 else 8) ≤ fuel → itoa base fuel value.toNat buf ptr =
        some (stored buf ptr (numeral base value.toNat), ptr + (numeral base value.toNat).length)) ∧
    ∀ value value' : BitVec 32, numeral base value.toNat = numeral base value'.toNat → value = value' := by
  have h1 : 1 < base := by omega
  have h16 : base ≤ 16 := by omega
  have hfit : ∀ value : BitVec 32, value.toNat < base ^ (if base = 10 then 10 else 8) := by
    intro value
    have hlt := value.isLt
    obtain rfl | rfl := hb
    · exact Nat.lt_of_lt_of_le hlt (by decide)
    · exact Nat.lt_of_lt_of_le hlt (by decide)
  have hpos : 0 < if base = 10 then 10 else 8 := by
    split
    · decide
    · decide
  refine ⟨fun value buf ptr => ⟨numeral_canonical h1 h16 _, length_numeral_le h1 hpos (hfit value), fun fuel hf => ?_⟩, ?_⟩
  · exact itoa_run h1 h16 fuel (Nat.lt_of_lt_of_le hpos hf)
      (Nat.lt_of_lt_of_le (hfit value) (Nat.pow_le_pow_right (Nat.zero_lt_of_lt h1) hf))
  · exact fun value value' h => BitVec.eq_of_toNat_eq (numeral_inj h1 h16 h)

/-- 4294967295 and 2147483648 have ten digits. -/
theorem itoa_canonical_ten : itoa 10 10 4294967295 zeros 0 = some (stored zeros 0 (numeral 10 4294967295), 10) ∧
    (numeral 10 4294967295 = numeral 10 2147483648 → (4294967295#32) = 2147483648#32) := by
  obtain ⟨hrun, hinj⟩ := itoa_canonical 10 (.inl rfl)
  exact ⟨(hrun 4294967295#32 zeros 0).2.2 10 (Nat.le_refl _), hinj 4294967295#32 2147483648#32⟩

end Enix.Lib
