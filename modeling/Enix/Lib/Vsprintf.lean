import Enix.Lib.Itoa

/-!
# Formatted text (`lib/stdio.c:29-80`)

`vsprintf` goes through the format and stores a piece of text for each character or
conversion. Only `strcpy` stores a NUL, behind a string; nothing stores one at the end.

* `vsprintfLoop_run`: the texts of the pieces, one behind the other.
* `vsprintf_prints_iff`: the NUL is there if the format ends with `%s`, or if it was there before.
* `vsprintf_unfinished`: the message of `ide_read`, in an array that is not cleared.
-/
set_option autoImplicit false

namespace Enix.Lib
open Enix.Core Function

/-! ## Strings -/

/-- mirrors src/lib/string.c:43-50 (`strcpy`) -/
def strcpy (dst : Bytes) (p : Nat) : (src : List UInt8) → Bytes
  | [] => update dst p 0
  | c :: src => strcpy (update dst p c) (p + 1) src

/-- `none`: there is no NUL among `fuel` bytes.
mirrors src/lib/string.c:53-60 (`strlen`) -/
def strlen (str : Bytes) : (fuel p : Nat) → Option Nat
  | 0, _ => none
  | fuel + 1, p => if str p = 0 then some 0 else (strlen str fuel (p + 1)).map (· + 1)

/-- A string and its NUL. -/
structure HoldsStr (buf : Bytes) (l : List UInt8) : Prop where
  bytes : ∀ i c, l[i]? = some c → buf i = c
  nul : buf l.length = 0

/-! ## `vsprintf` -/

/-- What `va_arg` finds in a slot: four bytes, or a pointer to a string. -/
inductive Arg where
  | word (w : BitVec 32)
  | ptr (s : List UInt8)
  deriving DecidableEq, Repr

/-- Deep enough for `itoa`, which divides 32 bits by 10 or 16. -/
def itoaDepth : Nat := 32

/-- `none`: the slot holds something else. The difference wraps, also for the most negative number.
mirrors src/lib/stdio.c:46-76 -/
def convert (indexChar : UInt8) : (ap : List Arg) → (str : Bytes) → (bufPtr : Nat) → Option (List Arg × Bytes × Nat)
  | .word w :: ap, str, bufPtr =>
    if indexChar = 0x63 then some (ap, update str bufPtr (UInt8.ofNat w.toNat), bufPtr + 1)
    else if indexChar = 0x64 then
      if w.toInt < 0 then (itoa 10 itoaDepth (0 - w).toNat (update str bufPtr 0x2d) (bufPtr + 1)).map (ap, ·)
      else (itoa 10 itoaDepth w.toNat str bufPtr).map (ap, ·)
    else if indexChar = 0x78 then (itoa 16 itoaDepth w.toNat str bufPtr).map (ap, ·)
    else none
  | .ptr s :: ap, str, bufPtr => if indexChar = 0x73 then some (ap, strcpy str bufPtr s, bufPtr + s.length) else none
  | [], _, _ => none

/-- Behind any other character than c, d, s and x the loop goes on with that character; the format
ends with its NUL.
mirrors src/lib/stdio.c:36-78 -/
def vsprintfLoop : (format : List UInt8) → (ap : List Arg) → (str : Bytes) → (bufPtr : Nat) → Option (Bytes × Nat)
  | [], _, str, bufPtr => some (str, bufPtr)
  | indexChar :: format, ap, str, bufPtr =>
    if indexChar ≠ 0x25 then vsprintfLoop format ap (update str bufPtr indexChar) (bufPtr + 1)
    else
      match format with
      | [] => some (str, bufPtr)
      | conversion :: format =>
        if conversion ∈ [0x63, 0x64, 0x73, 0x78] then
          match convert conversion ap str bufPtr with
          | none => none
          | some (ap, str, bufPtr) => vsprintfLoop format ap str bufPtr
        else vsprintfLoop (conversion :: format) ap str bufPtr

/-- mirrors src/lib/stdio.c:29-80 (`vsprintf`) -/
def vsprintf (fuel : Nat) (str : Bytes) (format : List UInt8) (ap : List Arg) : Option (Bytes × Nat) :=
  match vsprintfLoop format ap str 0 with
  | none => none
  | some (str, _) => (strlen str fuel 0).map (str, ·)

/-! ## Formats in pieces -/

/-- What a format is built from, with its argument. -/
inductive Piece where
  | lit (c : UInt8) (h : c ≠ 0 ∧ c ≠ 0x25)
  | chr (w : BitVec 32) (h : UInt8.ofNat w.toNat ≠ 0)
  | dec (w : BitVec 32)
  | str (s : List UInt8) (h : (0 : UInt8) ∉ s)
  | hex (w : BitVec 32)

namespace Piece

def format : Piece → List UInt8
  | lit c _ => [c]
  | chr _ _ => [0x25, 0x63]
  | dec _ => [0x25, 0x64]
  | str _ _ => [0x25, 0x73]
  | hex _ => [0x25, 0x78]

def args : Piece → List Arg
  | lit _ _ => []
  | chr w _ => [.word w]
  | dec w => [.word w]
  | str s _ => [.ptr s]
  | hex w => [.word w]

def text : Piece → List UInt8
  | lit c _ => [c]
  | chr w _ => [UInt8.ofNat w.toNat]
  | dec w => if w.toInt < 0 then 0x2d :: numeral 10 w.toInt.natAbs else numeral 10 w.toInt.natAbs
  | str s _ => s
  | hex w => numeral 16 w.toNat

/-- The NUL behind a string. -/
def nul : Piece → List UInt8
  | str _ _ => [0]
  | _ => []

end Piece

def formatOf (ps : List Piece) : List UInt8 := ps.flatMap Piece.format
def argsOf (ps : List Piece) : List Arg := ps.flatMap Piece.args
def textOf (ps : List Piece) : List UInt8 := ps.flatMap Piece.text

/-- The NUL behind the last piece. -/
def nulOf (ps : List Piece) : List UInt8 := (ps.getLast?.map Piece.nul).getD []

/-- The last conversion is `%s`. -/
def EndsInStr (ps : List Piece) : Prop := ∃ qs s h, ps = qs ++ [.str s h]

/-- What `vsprintf` is for: the texts and a NUL, and their length as the result. -/
def Prints (str : Bytes) (ps : List Piece) : Prop := ∀ fuel, (textOf ps).length < fuel →
  ∃ str', vsprintf fuel str (formatOf ps) (argsOf ps) = some (str', (textOf ps).length) ∧ HoldsStr str' (textOf ps)

section
variable {str buf : Bytes} {p q : Piece} {ps : List Piece} {l m r : List UInt8} {ap : List Arg} {i n fuel : Nat} {c : UInt8}

/-! ## Storing -/

/-- What is stored at the end of `l` covers what was there. -/
theorem stored_over (buf : Bytes) (i : Nat) (l : List UInt8) (h : m.length ≤ r.length) :
    stored (stored buf i (l ++ m)) (i + l.length) r = stored buf i (l ++ r) := by
  funext a
  unfold stored
  by_cases hr : i + l.length ≤ a ∧ a < i + l.length + r.length
  · rw [splice_in hr.1 hr.2, splice_in (by omega) (by rw [List.length_append]; omega), List.getD_append_right _ _ _ _ (by omega),
      Nat.sub_add_eq]
  · rw [splice_out (by omega)]
    by_cases hl : i ≤ a ∧ a < i + l.length
    · rw [splice_in hl.1 (by rw [List.length_append]; omega), splice_in hl.1 (by rw [List.length_append]; omega),
        List.getD_append _ _ _ _ (by omega), List.getD_append _ _ _ _ (by omega)]
    · rw [splice_out (by rw [List.length_append]; omega), splice_out (by rw [List.length_append]; omega)]

theorem stored_append (buf : Bytes) (i : Nat) (l r : List UInt8) :
    stored (stored buf i l) (i + l.length) r = stored buf i (l ++ r) := by
  have h := stored_over (m := []) (r := r) buf i l (Nat.zero_le _)
  rwa [List.append_nil] at h

theorem stored_single (buf : Bytes) (i : Nat) (c : UInt8) : stored buf i [c] = update buf i c := by
  have h := stored_snoc buf i [] c
  rw [stored_nil] at h
  exact h.symm

theorem stored_cons (buf : Bytes) (i : Nat) (c : UInt8) (l : List UInt8) :
    stored (update buf i c) (i + 1) l = stored buf i (c :: l) := by
  rw [← stored_single]
  exact stored_append buf i [c] l

theorem strcpy_eq (src : List UInt8) : ∀ (dst : Bytes) (i : Nat), strcpy dst i src = stored dst i (src ++ [0]) := by
  induction src with
  | nil => exact fun dst i => (stored_single dst i 0).symm
  | cons c src ih =>
    intro dst i
    rw [strcpy, ih, stored_cons]
    rfl

theorem strlen_eq (n : Nat) : ∀ {fuel i : Nat}, (∀ j, j < n → str (i + j) ≠ 0) → str (i + n) = 0 → n < fuel →
    strlen str fuel i = some n := by
  induction n with
  | zero =>
    intro fuel i _ hz hf
    obtain ⟨fuel, rfl⟩ : ∃ f, fuel = f + 1 := ⟨fuel - 1, by omega⟩
    exact if_pos hz
  | succ n ih =>
    intro fuel i hc hz hf
    obtain ⟨fuel, rfl⟩ : ∃ f, fuel = f + 1 := ⟨fuel - 1, by omega⟩
    have hrest := @ih fuel (i + 1) (fun j hj => by
      rw [Nat.add_assoc, Nat.add_comm 1]
      exact hc (j + 1) (by omega)) (by rw [Nat.add_assoc, Nat.add_comm 1]; exact hz) (by omega)
    have h0 : str i ≠ 0 := hc 0 (Nat.succ_pos n)
    unfold strlen
    rw [if_neg h0, hrest]
    rfl

theorem HoldsStr.strlen (h : HoldsStr str l) (h0 : (0 : UInt8) ∉ l) (hf : l.length < fuel) : strlen str fuel 0 = some l.length := by
  refine strlen_eq l.length (fun j hj hc => ?_) (by rw [Nat.zero_add]; exact h.nul) hf
  rw [Nat.zero_add, h.bytes j _ (List.getElem?_eq_getElem hj)] at hc
  exact h0 (hc ▸ List.getElem_mem hj)

/-! ## Numbers -/

theorem natAbs_of_neg {w : BitVec 32} (h : w.toInt < 0) : (0 - w).toNat = w.toInt.natAbs := by
  have hw := w.isLt
  rw [BitVec.toInt_eq_toNat_cond] at h ⊢
  rw [show (0 : BitVec 32) - w = -w from BitVec.zero_sub w, BitVec.toNat_neg]
  split at h
  · omega
  · rw [if_neg (by assumption)]
    omega

theorem natAbs_of_nonneg {w : BitVec 32} (h : ¬ w.toInt < 0) : w.toNat = w.toInt.natAbs := by
  have hw := w.isLt
  rw [BitVec.toInt_eq_toNat_cond] at h ⊢
  split at h
  · rw [if_pos (by assumption)]
    rfl
  · omega

/-- 32 calls of `itoa` are enough in both bases. -/
theorem itoa_word {base value : Nat} (hb : 1 < base) (h16 : base ≤ 16) (hv : value < 2 ^ 32) : itoa base itoaDepth value str i =
    some (stored str i (numeral base value), i + (numeral base value).length) :=
  itoa_run hb h16 itoaDepth (by decide) (Nat.lt_of_lt_of_le hv (Nat.pow_le_pow_left hb 32))

theorem zero_notMem_numeral {base : Nat} (hb : 1 < base) (h16 : base ≤ 16) (value : Nat) :
    (0 : UInt8) ∉ numeral base value := fun h => absurd (List.mem_of_mem_take (mem_numeral hb h16 h)) (by decide)

theorem text_dec_neg {w : BitVec 32} (h : w.toInt < 0) : (Piece.dec w).text = 0x2d :: numeral 10 w.toInt.natAbs := if_pos h

theorem text_dec_nonneg {w : BitVec 32} (h : ¬ w.toInt < 0) : (Piece.dec w).text = numeral 10 w.toInt.natAbs := if_neg h

/-- No text has a NUL in it. -/
theorem Piece.zero_notMem_text (p : Piece) : (0 : UInt8) ∉ p.text := by
  cases p with
  | lit c h => exact fun hc => h.1 (List.mem_singleton.1 hc).symm
  | chr w h => exact fun hc => h (List.mem_singleton.1 hc).symm
  | dec w =>
    have hd := zero_notMem_numeral (by decide : 1 < 10) (by decide) w.toInt.natAbs
    by_cases hneg : w.toInt < 0
    · rw [text_dec_neg hneg]
      exact List.not_mem_cons_of_ne_of_not_mem (by decide) hd
    · rw [text_dec_nonneg hneg]
      exact hd
  | str s h => exact h
  | hex w => exact zero_notMem_numeral (by decide) (by decide) w.toNat

theorem zero_notMem_textOf (ps : List Piece) : (0 : UInt8) ∉ textOf ps := fun h => by
  obtain ⟨p, _, hp⟩ := List.mem_flatMap.1 h
  exact p.zero_notMem_text hp

/-! ## The loop -/

theorem convert_dec (w : BitVec 32) : convert 0x64 (.word w :: ap) str i =
    some (ap, stored str i (Piece.dec w).text, i + (Piece.dec w).text.length) := by
  show (if w.toInt < 0 then (itoa 10 itoaDepth (0 - w).toNat (update str i 0x2d) (i + 1)).map (ap, ·)
    else (itoa 10 itoaDepth w.toNat str i).map (ap, ·)) = _
  by_cases hneg : w.toInt < 0
  · rw [if_pos hneg, text_dec_neg hneg, itoa_word (by decide) (by decide) (0 - w).isLt, natAbs_of_neg hneg, stored_cons,
      Nat.add_right_comm]
    rfl
  · rw [if_neg hneg, text_dec_nonneg hneg, itoa_word (by decide) (by decide) w.isLt, natAbs_of_nonneg hneg]
    rfl

theorem convert_hex (w : BitVec 32) : convert 0x78 (.word w :: ap) str i =
    some (ap, stored str i (Piece.hex w).text, i + (Piece.hex w).text.length) := by
  show (itoa 16 itoaDepth w.toNat str i).map (ap, ·) = _
  rw [itoa_word (by decide) (by decide) w.isLt]
  rfl

theorem vsprintfLoop_conversion {ap' : List Arg} {format : List UInt8} (hc : c ∈ ([0x63, 0x64, 0x73, 0x78] : List UInt8))
    (h : convert c ap str i = some (ap', buf, n)) :
    vsprintfLoop (0x25 :: c :: format) ap str i = vsprintfLoop format ap' buf n := by
  rw [vsprintfLoop, if_neg (not_not_intro rfl), if_pos hc, h]

/-- **One piece of the format.** -/
theorem vsprintfLoop_piece (p : Piece) (format : List UInt8) (ap : List Arg) : vsprintfLoop (p.format ++ format) (p.args ++ ap) str i =
    vsprintfLoop format ap (stored str i (p.text ++ p.nul)) (i + p.text.length) := by
  cases p with
  | lit c h =>
    show vsprintfLoop (c :: format) ap str i = vsprintfLoop format ap (stored str i [c]) (i + 1)
    rw [vsprintfLoop.eq_def, stored_single]
    exact if_pos h.2
  | chr w h =>
    refine vsprintfLoop_conversion (by decide) ?_
    show some (ap, update str i (UInt8.ofNat w.toNat), i + 1) = some (ap, stored str i [UInt8.ofNat w.toNat], i + 1)
    rw [stored_single]
  | dec w =>
    refine (vsprintfLoop_conversion (by decide) (convert_dec w)).trans ?_
    exact congrArg (fun l => vsprintfLoop format ap (stored str i l) _) (List.append_nil _).symm
  | str s h =>
    refine vsprintfLoop_conversion (by decide) ?_
    show some (ap, strcpy str i s, i + s.length) = some (ap, stored str i (s ++ [0]), i + s.length)
    rw [strcpy_eq]
  | hex w =>
    refine (vsprintfLoop_conversion (by decide) (convert_hex w)).trans ?_
    exact congrArg (fun l => vsprintfLoop format ap (stored str i l) _) (List.append_nil _).symm

theorem textOf_cons (p : Piece) (ps : List Piece) : textOf (p :: ps) = p.text ++ textOf ps := List.flatMap_cons

theorem Piece.length_nul_le (p : Piece) : p.nul.length ≤ 1 := by
  cases p with
  | str s h => exact Nat.le_refl 1
  | lit c h | chr w h | dec w | hex w => exact Nat.zero_le 1

/-- A piece stores something. -/
theorem Piece.length_pos (p : Piece) : 0 < (p.text ++ p.nul).length := by
  rw [List.length_append]
  cases p with
  | lit c h | chr w h => exact Nat.one_pos
  | str s h => exact Nat.succ_pos _
  | dec w =>
    have hd := List.length_pos_iff.2 (numeral_ne_nil (by decide : 1 < 10) w.toInt.natAbs)
    by_cases hneg : w.toInt < 0
    · rw [text_dec_neg hneg]
      exact Nat.add_pos_left (Nat.succ_pos _) _
    · rw [text_dec_nonneg hneg]
      exact Nat.add_pos_left hd _
  | hex w => exact Nat.add_pos_left (List.length_pos_iff.2 (numeral_ne_nil (by decide) w.toNat)) _

theorem nulOf_concat (ps : List Piece) (p : Piece) : nulOf (ps ++ [p]) = p.nul := by
  unfold nulOf
  rw [List.getLast?_concat]
  rfl

theorem length_pos_of_ne_nil (h : ps ≠ []) : 0 < (textOf ps ++ nulOf ps).length := by
  obtain ⟨qs, q, rfl⟩ := (List.eq_nil_or_concat' ps).resolve_left h
  have hq := q.length_pos
  rw [nulOf_concat]
  unfold textOf
  rw [List.flatMap_append, List.flatMap_singleton, List.append_assoc, List.length_append]
  exact Nat.add_pos_right _ hq

/-- By induction on the pieces: the next one covers the NUL of the one before. -/
theorem vsprintfLoop_run (ps : List Piece) : ∀ (str : Bytes) (i : Nat), vsprintfLoop (formatOf ps) (argsOf ps) str i =
    some (stored str i (textOf ps ++ nulOf ps), i + (textOf ps).length) := by
  induction ps with
  | nil =>
    intro str i
    exact congrArg (fun b => some (b, i)) (stored_nil str i).symm
  | cons p ps ih =>
    intro str i
    have hstep := @vsprintfLoop_piece str i p (formatOf ps) (argsOf ps)
    unfold formatOf argsOf at hstep ⊢
    rw [List.flatMap_cons, List.flatMap_cons, hstep]
    refine (ih _ _).trans ?_
    rw [textOf_cons, List.length_append, ← Nat.add_assoc, List.append_assoc]
    by_cases hps : ps = []
    · subst hps
      rw [show textOf [] ++ nulOf [] = [] from rfl, stored_nil]
      rfl
    · have hnul : nulOf (p :: ps) = nulOf ps := by
        unfold nulOf
        rw [List.getLast?_cons_of_ne_nil hps]
      rw [stored_over _ _ _ (Nat.le_trans p.length_nul_le (length_pos_of_ne_nil hps)), hnul]

theorem vsprintf_eq (fuel : Nat) (str : Bytes) (ps : List Piece) : vsprintf fuel str (formatOf ps) (argsOf ps) =
    (strlen (stored str 0 (textOf ps ++ nulOf ps)) fuel 0).map (stored str 0 (textOf ps ++ nulOf ps), ·) := by
  unfold vsprintf
  rw [vsprintfLoop_run]

/-! ## The end of the text -/

theorem endsInStr_concat (ps : List Piece) (p : Piece) : EndsInStr (ps ++ [p]) ↔ p.nul = [0] := by
  constructor
  · rintro ⟨qs, s, h, heq⟩
    have hp : p = .str s h := List.singleton_inj.1 (List.append_inj' heq rfl).2
    rw [hp]
    rfl
  · intro h
    cases p with
    | str s hs => exact ⟨ps, s, hs, rfl⟩
    | lit c hc | chr w hc | dec w | hex w => exact absurd h (List.cons_ne_nil _ _).symm

theorem nulOf_cases (ps : List Piece) : EndsInStr ps ∧ nulOf ps = [0] ∨ ¬ EndsInStr ps ∧ nulOf ps = [] := by
  obtain rfl | ⟨qs, q, rfl⟩ := List.eq_nil_or_concat' ps
  · refine .inr ⟨?_, rfl⟩
    rintro ⟨qs, s, h, heq⟩
    exact absurd heq (List.append_ne_nil_of_right_ne_nil _ (List.cons_ne_nil _ _)).symm
  · have hnul := nulOf_concat qs q
    rw [hnul, endsInStr_concat]
    cases q with
    | str s h => exact .inl ⟨rfl, rfl⟩
    | lit c h | chr w h | dec w | hex w => exact .inr ⟨(List.cons_ne_nil _ _).symm, rfl⟩

/-- The byte behind the text is the NUL of `%s` or an old one. -/
theorem stored_end (str : Bytes) (ps : List Piece) : stored str 0 (textOf ps ++ nulOf ps) (textOf ps).length =
    if nulOf ps = [0] then 0 else str (textOf ps).length := by
  unfold stored
  obtain ⟨_, hnul⟩ | ⟨_, hnul⟩ := nulOf_cases ps
  · rw [if_pos hnul, hnul, splice_in (Nat.zero_le _) (by rw [List.length_append, List.length_singleton]; omega), Nat.sub_zero,
      List.getD_append_right _ _ _ _ (Nat.le_refl _), Nat.sub_self]
    rfl
  · rw [if_neg (by rw [hnul]; exact (List.cons_ne_nil _ _).symm), hnul, List.append_nil, splice_out (by omega)]

theorem holdsStr_iff (str : Bytes) (ps : List Piece) : HoldsStr (stored str 0 (textOf ps ++ nulOf ps)) (textOf ps) ↔
    stored str 0 (textOf ps ++ nulOf ps) (textOf ps).length = 0 := by
  refine ⟨HoldsStr.nul, fun h => ⟨fun i c hc => ?_, h⟩⟩
  obtain ⟨hi, rfl⟩ := List.getElem?_eq_some_iff.1 hc
  unfold stored
  rw [splice_in (Nat.zero_le i) (by rw [List.length_append]; omega), Nat.sub_zero, List.getD_append _ _ _ _ hi,
    List.getD_eq_getElem _ _ hi]

/-- One NUL decides. -/
theorem prints_iff (str : Bytes) (ps : List Piece) : Prints str ps ↔
    stored str 0 (textOf ps ++ nulOf ps) (textOf ps).length = 0 := by
  constructor
  · intro h
    obtain ⟨str', hrun, hstr⟩ := h _ (Nat.lt_succ_self _)
    rw [vsprintf_eq] at hrun
    obtain ⟨n, _, heq⟩ := Option.map_eq_some_iff.1 hrun
    obtain ⟨rfl, _⟩ := Prod.mk.inj heq
    exact hstr.nul
  · intro h fuel hf
    have hstr := (holdsStr_iff str ps).2 h
    refine ⟨_, ?_, hstr⟩
    rw [vsprintf_eq, hstr.strlen (zero_notMem_textOf ps) hf]
    rfl

end

/-- **The text ends with a NUL** if `strcpy` comes last, or if the destination has one there. -/
theorem vsprintf_prints_iff (str : Bytes) (ps : List Piece) : Prints str ps ↔ EndsInStr ps ∨ str (textOf ps).length = 0 := by
  rw [prints_iff, stored_end]
  obtain ⟨hend, hnul⟩ | ⟨hend, hnul⟩ := nulOf_cases ps
  · rw [if_pos hnul]
    exact iff_of_true rfl (.inl hend)
  · rw [if_neg (by rw [hnul]; exact (List.cons_ne_nil _ _).symm), or_iff_right hend]

/-- Characters that are copied. -/
def lits (l : List UInt8) (h : (l.all fun c => c ≠ 0 ∧ c ≠ 0x25) = true) : List Piece :=
  l.pmap Piece.lit fun c hc => of_decide_eq_true (List.all_eq_true.1 h c hc)

/-- "%s read sector %d failed!!!\n", for sector 5 of sda.
mirrors src/device/ide.c:215 -/
def readError : List Piece :=
  .str [0x73, 0x64, 0x61] (by decide) ::
    lits [0x20, 0x72, 0x65, 0x61, 0x64, 0x20, 0x73, 0x65, 0x63, 0x74, 0x6f, 0x72, 0x20] rfl ++
  .dec 5 :: lits [0x20, 0x66, 0x61, 0x69, 0x6c, 0x65, 0x64, 0x21, 0x21, 0x21, 0x0a] rfl

/-- The array on the stack has other bytes behind the message. -/
theorem vsprintf_unfinished : ¬ ∀ (str : Bytes) (ps : List Piece), Prints str ps := by
  intro h
  have hend := (prints_iff (fun _ => 0xFF) readError).1 (h _ _)
  rw [stored_end] at hend
  revert hend
  decide

end Enix.Lib
