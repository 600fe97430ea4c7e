import Enix.Core.Bytes
import Mathlib.Data.List.TakeWhile
import Mathlib.Logic.Function.Basic

/-!
# Splitting a command line (`shell/shell.c:81-119`)

`cmd_parse` cuts a string at its token characters. `wordStarts` says where the words
begin, and `wordAt` what each of them is.

* `parseLoop_words`: the outer loop, by induction on what is left of the string.
* `cmdParse_iff`: `cmd_parse` does what it is for exactly if there are 15 words at most,
  which is one less than `argv` has places.
-/
set_option autoImplicit false

namespace Enix.Shell
open Enix.Core Function

/-- mirrors src/shell/shell.c:13 -/
def maxArgNr : Nat := 16

/-- Pointers into the string; `none` is NULL. -/
abbrev Argv := Nat → Option Nat

structure CmdLine where
  ret : Int
  mem : Bytes
  argv : Argv

/-- `left` bytes of the string, with its NUL, are left.
mirrors src/shell/shell.c:98-101 -/
def skipTokens (mem : Bytes) (token : UInt8) : (left next : Nat) → Option Nat
  | 0, _ => none
  | left + 1, next => if mem next = token then skipTokens mem token left (next + 1) else some next

/-- mirrors src/shell/shell.c:108-109 -/
def skipWord (mem : Bytes) (token : UInt8) : (left next : Nat) → Option Nat
  | 0, _ => none
  | left + 1, next => if mem next ≠ 0 ∧ mem next ≠ token then skipWord mem token left (next + 1) else some next

/-- The string ends with the NUL at `len`. `none` is an access outside the string or outside `argv`.
mirrors src/shell/shell.c:95-118 -/
def parseLoop (token : UInt8) (len : Nat) : (fuel : Nat) → Bytes → Argv → (argc next : Nat) → Option CmdLine
  | 0, _, _, _, _ => none
  | fuel + 1, mem, argv, argc, next =>
    if mem next = 0 then some ⟨argc, mem, argv⟩
    else do
      let next ← skipTokens mem token (len + 1 - next) next
      if mem next = 0 then some ⟨argc, mem, argv⟩
      else if argc < maxArgNr then do
        let argv := update argv argc (some next)
        let next ← skipWord mem token (len + 1 - next) next
        let (mem, next) := if mem next ≠ 0 then (update mem next 0, next + 1) else (mem, next)
        if maxArgNr ≤ argc then some ⟨-1, mem, argv⟩
        else parseLoop token len fuel mem argv (argc + 1) next
      else none

/-- mirrors src/shell/shell.c:81-119 (`cmd_parse`) -/
def cmdParse (mem : Bytes) (len : Nat) (argv : Argv) (token : UInt8) : Option CmdLine :=
  let argv := fun i => if i < maxArgNr then none else argv i
  parseLoop token len (len + 1) mem argv 0 0

/-- The arguments up to the NULL; `none` is an access outside the array.
mirrors src/userprog/exec.c:204-208 (`sys_execv`) -/
def countArgs (argv : Argv) : (left argc : Nat) → Option Nat
  | 0, _ => none
  | left + 1, argc => if argv argc = none then some argc else countArgs argv left (argc + 1)

/-! ## The words of a string -/

/-- Where the words begin; `inWord`: the byte before is part of one. -/
def wordStarts (token : UInt8) : (inWord : Bool) → (pos : Nat) → List UInt8 → List Nat
  | _, _, [] => []
  | inWord, pos, c :: str =>
    if c = token then wordStarts token false (pos + 1) str
    else if inWord then wordStarts token true (pos + 1) str
    else pos :: wordStarts token true (pos + 1) str

/-- The word that begins at `p`. -/
def wordAt (token : UInt8) (str : List UInt8) (p : Nat) : List UInt8 := (str.drop p).takeWhile fun c => c != token

/-- A string in memory. -/
structure StrAt (mem : Bytes) (p : Nat) (str : List UInt8) : Prop where
  bytes : ∀ i c, str[i]? = some c → mem (p + i) = c
  nul : mem (p + str.length) = 0

/-- `argv` holds the words of `str`, and a NULL behind them. -/
structure Splits (token : UInt8) (str : List UInt8) (argv₀ : Argv) (r : CmdLine) : Prop where
  ret : r.ret = (wordStarts token false 0 str).length
  argv : ∀ i < maxArgNr, r.argv i = (wordStarts token false 0 str)[i]?
  words : ∀ p ∈ wordStarts token false 0 str, StrAt r.mem p (wordAt token str p)
  null : countArgs r.argv maxArgNr 0 = some (wordStarts token false 0 str).length
  outside : (∀ i, maxArgNr ≤ i → r.argv i = argv₀ i)

/-- What `cmd_parse` is for: the words, or -1 for words that leave no place for the NULL. -/
def Parses (token : UInt8) (str : List UInt8) (mem : Bytes) (argv : Argv) : Prop :=
  ∃ r, cmdParse mem str.length argv token = some r ∧ (∀ i, str.length ≤ i → r.mem i = mem i) ∧
    (Splits token str argv r ∨ r.ret = -1 ∧ maxArgNr ≤ (wordStarts token false 0 str).length)

section
variable {token : UInt8} {mem : Bytes} {str a w rest : List UInt8} {argv : Argv} {next argc len left pos fuel : Nat}

/-! ## Where words begin -/

theorem wordStarts_token (h : ∀ c ∈ a, c = token) (pos : Nat) (rest : List UInt8) :
    wordStarts token false pos (a ++ rest) = wordStarts token false (pos + a.length) rest := by
  induction a generalizing pos with
  | nil => rfl
  | cons c a ih =>
    rw [List.cons_append, wordStarts, if_pos (h c List.mem_cons_self), ih fun d hd => h d (List.mem_cons_of_mem _ hd),
      List.length_cons, Nat.add_right_comm]
    rfl

theorem wordStarts_inWord (h : ∀ c ∈ w, c ≠ token) (pos : Nat) (rest : List UInt8) :
    wordStarts token true pos (w ++ rest) = wordStarts token true (pos + w.length) rest := by
  induction w generalizing pos with
  | nil => rfl
  | cons c w ih =>
    rw [List.cons_append, wordStarts, if_neg (h c List.mem_cons_self), if_pos rfl,
      ih fun d hd => h d (List.mem_cons_of_mem _ hd), List.length_cons, Nat.add_right_comm]
    rfl

/-- A word, with what is behind it. -/
theorem wordStarts_word (h : ∀ c ∈ w, c ≠ token) (hne : w ≠ []) (pos : Nat) (rest : List UInt8) :
    wordStarts token false pos (w ++ rest) = pos :: wordStarts token true (pos + w.length) rest := by
  cases w with
  | nil => exact absurd rfl hne
  | cons c w =>
    rw [List.cons_append, wordStarts, if_neg (h c List.mem_cons_self), if_neg (by decide),
      wordStarts_inWord fun d hd => h d (List.mem_cons_of_mem _ hd), List.length_cons, Nat.add_right_comm]
    rfl

/-- No start is in front of the position. -/
theorem le_of_mem_wordStarts : ∀ (str : List UInt8) (inWord : Bool) (pos p : Nat), p ∈ wordStarts token inWord pos str →
    pos ≤ p := by
  intro str
  induction str with
  | nil => exact fun _ _ _ h => by cases h
  | cons c str ih =>
    intro inWord pos p h
    rw [wordStarts] at h
    split at h
    · exact Nat.le_of_succ_le (ih _ _ _ h)
    · split at h
      · exact Nat.le_of_succ_le (ih _ _ _ h)
      · rcases List.mem_cons.1 h with rfl | h
        · exact Nat.le_refl _
        · exact Nat.le_of_succ_le (ih _ _ _ h)

/-- The words come in order. -/
theorem wordStarts_pairwise : ∀ (str : List UInt8) (inWord : Bool) (pos : Nat),
    (wordStarts token inWord pos str).Pairwise (· < ·) := by
  intro str
  induction str with
  | nil => exact fun _ _ => List.Pairwise.nil
  | cons c str ih =>
    intro inWord pos
    rw [wordStarts]
    split
    · exact ih _ _
    · split
      · exact ih _ _
      · exact List.pairwise_cons.2 ⟨fun p hp => le_of_mem_wordStarts _ _ _ _ hp, ih _ _⟩

/-- A word begins where there is a character that is no token, behind a token or at the start. -/
theorem mem_wordStarts : ∀ (str : List UInt8) (inWord : Bool) (pos p : Nat), p ∈ wordStarts token inWord pos str ↔
    ∃ i c, p = pos + i ∧ str[i]? = some c ∧ c ≠ token ∧ (i = 0 ∧ inWord = false ∨ 0 < i ∧ str[i - 1]? = some token) := by
  intro str
  induction str with
  | nil =>
    intro inWord pos p
    rw [wordStarts]
    simp
  | cons c str ih =>
    intro inWord pos p
    have hstep : ∀ inWord', p ∈ wordStarts token inWord' (pos + 1) str ↔
        ∃ i d, p = pos + (i + 1) ∧ (c :: str)[i + 1]? = some d ∧ d ≠ token ∧
          (i = 0 ∧ inWord' = false ∨ 0 < i ∧ str[i - 1]? = some token) := by
      intro inWord'
      rw [ih]
      simp only [List.getElem?_cons_succ, Nat.add_assoc, Nat.add_comm 1]
    have hprev : ∀ i, (i = 0 ∧ decide (c ≠ token) = false ∨ 0 < i ∧ str[i - 1]? = some token) ↔
        (c :: str)[i + 1 - 1]? = some token := by
      intro i
      cases i with
      | zero => simp
      | succ i => simp
    have hinW : ∀ b, wordStarts token b pos (c :: str) =
        (if c ≠ token ∧ b = false then [pos] else []) ++ wordStarts token (decide (c ≠ token)) (pos + 1) str := by
      intro b
      rw [wordStarts]
      by_cases hc : c = token
      · simp [hc]
      · cases b <;> simp [hc]
    rw [hinW, List.mem_append, hstep]
    simp only [hprev]
    constructor
    · rintro (hp | ⟨i, d, hp, hi, hd, hprevi⟩)
      · split at hp
        · rename_i hcb
          exact ⟨0, c, List.mem_singleton.1 hp, rfl, hcb.1, .inl ⟨rfl, hcb.2⟩⟩
        · cases hp
      · exact ⟨i + 1, d, hp, hi, hd, .inr ⟨Nat.succ_pos i, hprevi⟩⟩
    · rintro ⟨i, d, hp, hi, hd, hor⟩
      rcases hor with ⟨rfl, hb⟩ | ⟨hpos, hprevi⟩
      · left
        cases hi
        rw [if_pos ⟨hd, hb⟩]
        exact List.mem_singleton.2 hp
      · obtain ⟨i, rfl⟩ : ∃ j, i = j + 1 := ⟨i - 1, by omega⟩
        exact .inr ⟨i, d, hp, hi, hd, hprevi⟩

/-! ## The inner loops -/

/-- The string `str` is at `next`. -/
theorem StrAt.head {c : UInt8} (h : StrAt mem next (c :: str)) : mem next = c := h.bytes 0 c rfl

theorem StrAt.tail {c : UInt8} (h : StrAt mem next (c :: str)) : StrAt mem (next + 1) str := by
  refine ⟨fun i d hi => ?_, ?_⟩
  · rw [Nat.add_right_comm]
    exact h.bytes (i + 1) d hi
  · rw [Nat.add_right_comm]
    exact h.nul

theorem skipTokens_run (h : StrAt mem next (a ++ rest)) (ha : ∀ c ∈ a, c = token)
    (hstop : mem (next + a.length) ≠ token) (hleft : a.length < left) :
    skipTokens mem token left next = some (next + a.length) := by
  induction a generalizing next left with
  | nil =>
    obtain ⟨left, rfl⟩ : ∃ n, left = n + 1 := ⟨left - 1, by omega⟩
    rw [skipTokens, if_neg (show mem next ≠ token from hstop)]
    rfl
  | cons c a ih =>
    obtain ⟨left, rfl⟩ : ∃ n, left = n + 1 := ⟨left - 1, by omega⟩
    rw [List.length_cons] at hleft hstop ⊢
    rw [skipTokens, if_pos (h.head.trans (ha c List.mem_cons_self)), ih h.tail
      (fun d hd => ha d (List.mem_cons_of_mem _ hd)) (by rwa [Nat.add_right_comm]) (by omega)]
    congr 1
    omega

theorem skipWord_run (h : StrAt mem next (w ++ rest)) (hw : ∀ c ∈ w, c ≠ 0 ∧ c ≠ token)
    (hstop : mem (next + w.length) = 0 ∨ mem (next + w.length) = token) (hleft : w.length < left) :
    skipWord mem token left next = some (next + w.length) := by
  induction w generalizing next left with
  | nil =>
    obtain ⟨left, rfl⟩ : ∃ n, left = n + 1 := ⟨left - 1, by omega⟩
    rw [skipWord, if_neg fun hno => hstop.elim hno.1 hno.2]
    rfl
  | cons c w ih =>
    obtain ⟨left, rfl⟩ : ∃ n, left = n + 1 := ⟨left - 1, by omega⟩
    rw [List.length_cons] at hleft hstop ⊢
    have hc := hw c List.mem_cons_self
    rw [skipWord, if_pos (by rw [h.head]; exact hc), ih h.tail (fun d hd => hw d (List.mem_cons_of_mem _ hd))
      (by rwa [Nat.add_right_comm]) (by omega)]
    congr 1
    omega

/-! ## The outer loop -/

theorem StrAt.append (h : StrAt mem next (a ++ rest)) : StrAt mem (next + a.length) rest := by
  refine ⟨fun i c hi => ?_, ?_⟩
  · rw [Nat.add_assoc]
    exact h.bytes (a.length + i) c (by rw [List.getElem?_append_right (Nat.le_add_right _ _), Nat.add_sub_cancel_left]; exact hi)
  · rw [Nat.add_assoc, ← List.length_append]
    exact h.nul

/-- What is at the front of a string in memory. -/
theorem StrAt.at (h : StrAt mem next str) : mem next = str.headD 0 := by
  cases str with
  | nil => exact h.nul
  | cons c str => exact h.head

/-- Behind a word: the end, or a token character. -/
def Ends (token : UInt8) (rest : List UInt8) : Prop := rest = [] ∨ ∃ rest', rest = token :: rest'

/-- One round of the outer loop that finds a word. -/
theorem parseLoop_word {len : Nat} (h : StrAt mem next (a ++ (w ++ rest))) (ha : ∀ c ∈ a, c = token)
    (hw : ∀ c ∈ w, c ≠ 0 ∧ c ≠ token) (hne : w ≠ []) (hrest : Ends token rest) (h0 : (0 : UInt8) ∉ a ++ (w ++ rest))
    (hlen : next + (a ++ (w ++ rest)).length = len) :
    parseLoop token len (fuel + 1) mem argv argc next =
      if argc < maxArgNr then
        if rest = [] then
          parseLoop token len fuel mem (update argv argc (some (next + a.length))) (argc + 1) (next + a.length + w.length)
        else parseLoop token len fuel (update mem (next + a.length + w.length) 0)
          (update argv argc (some (next + a.length))) (argc + 1) (next + a.length + w.length + 1)
      else none := by
  have hfront : mem next ≠ 0 := by
    rw [h.at]
    cases hs : a ++ (w ++ rest) with
    | nil => simp [hne] at hs
    | cons c s =>
      rw [hs] at h0
      exact fun he => h0 (he ▸ List.mem_cons_self)
  obtain ⟨c, w', rfl⟩ : ∃ c w', w = c :: w' := List.exists_cons_of_ne_nil hne
  have hword : StrAt mem (next + a.length) ((c :: w') ++ rest) := h.append
  have hc := hw c List.mem_cons_self
  have hat : mem (next + a.length) = c := hword.head
  have hend : mem (next + a.length + (c :: w').length) = rest.headD 0 := hword.append.at
  simp only [List.length_append] at hlen
  have hstop : mem (next + a.length + (c :: w').length) = 0 ∨ mem (next + a.length + (c :: w').length) = token := by
    rw [hend]
    rcases hrest with rfl | ⟨rest', rfl⟩
    · exact .inl rfl
    · exact .inr rfl
  rw [parseLoop, if_neg hfront, skipTokens_run h ha (by rw [hat]; exact hc.2) (by omega)]
  simp only [Option.bind_eq_bind, Option.bind_some]
  rw [if_neg (by rw [hat]; exact hc.1)]
  by_cases hroom : argc < maxArgNr
  · rw [if_pos hroom, if_pos hroom, skipWord_run hword hw hstop (by omega)]
    simp only [Option.bind_some]
    rcases hrest with rfl | ⟨rest', rfl⟩
    · rw [if_neg (c := mem _ ≠ 0) (by rw [hend]; exact fun hno => hno rfl), if_pos rfl]
      dsimp only
      rw [if_neg (by omega)]
    · have ht : token ≠ 0 := fun he => h0 (by simp [he])
      rw [if_pos (c := mem _ ≠ 0) (by rw [hend]; exact ht), if_neg (List.cons_ne_nil _ _)]
      dsimp only
      rw [if_neg (by omega)]
  · rw [if_neg hroom, if_neg hroom]

/-- A round that finds no more word. -/
theorem parseLoop_end {len : Nat} (h : StrAt mem next a) (ha : ∀ c ∈ a, c = token) (h0 : (0 : UInt8) ∉ a)
    (hlen : next + a.length = len) : parseLoop token len (fuel + 1) mem argv argc next = some ⟨argc, mem, argv⟩ := by
  rw [parseLoop]
  by_cases hfront : mem next = 0
  · rw [if_pos hfront]
  · rw [if_neg hfront]
    have hne : a ≠ [] := by
      rintro rfl
      exact hfront h.nul
    obtain ⟨c, a', rfl⟩ := List.exists_cons_of_ne_nil hne
    have ht : token ≠ 0 := fun he => h0 (by rw [← he, ← ha c List.mem_cons_self]; exact List.mem_cons_self)
    rw [← List.append_nil (c :: a')] at h
    have hend : mem (next + (c :: a').length) = 0 := h.append.at
    rw [skipTokens_run h ha (by rw [hend]; exact Ne.symm ht) (by omega)]
    simp only [Option.bind_eq_bind, Option.bind_some]
    rw [if_pos hend]

/-- The pointers stored one after the other. -/
def stores : Argv → (argc : Nat) → List Nat → Argv
  | argv, _, [] => argv
  | argv, argc, p :: ps => stores (update argv argc (some p)) (argc + 1) ps

theorem stores_apply (ps : List Nat) (argv : Argv) (argc i : Nat) :
    stores argv argc ps i = if argc ≤ i ∧ i < argc + ps.length then ps[i - argc]? else argv i := by
  induction ps generalizing argv argc with
  | nil => rw [stores, if_neg (by simp only [List.length_nil]; omega)]
  | cons p ps ih =>
    rw [stores, ih, List.length_cons]
    by_cases hi : i = argc
    · subst hi
      rw [if_neg (by omega), if_pos (by omega), update_self, Nat.sub_self]
      rfl
    · rw [update_of_ne hi]
      by_cases hin : argc + 1 ≤ i ∧ i < argc + 1 + ps.length
      · obtain ⟨j, rfl⟩ : ∃ j, i = argc + 1 + j := ⟨i - (argc + 1), by omega⟩
        rw [if_pos hin, if_pos (by omega), Nat.add_sub_cancel_left, Nat.add_assoc, Nat.add_sub_cancel_left, Nat.add_comm 1 j]
        rfl
      · rw [if_neg hin, if_neg (by omega)]

/-- The word that begins at `p` in a string that begins at `next`. -/
def wordFrom (token : UInt8) (next : Nat) (str : List UInt8) (p : Nat) : List UInt8 := wordAt token str (p - next)

/-- What the loop leaves, from the string on that is left. -/
structure Left (token : UInt8) (str : List UInt8) (next : Nat) (mem mem' : Bytes) : Prop where
  before : ∀ i < next, mem' i = mem i
  behind : ∀ i, next + str.length ≤ i → mem' i = mem i
  words : ∀ p ∈ wordStarts token false next str, StrAt mem' p (wordFrom token next str p)

/-- A string is token characters, a word, and the rest. -/
theorem exists_word (token : UInt8) (str : List UInt8) : (∀ c ∈ str, c = token) ∨ ∃ a w rest, str = a ++ (w ++ rest) ∧
    (∀ c ∈ a, c = token) ∧ (∀ c ∈ w, c ≠ token) ∧ w ≠ [] ∧ Ends token rest := by
  induction str with
  | nil => exact .inl fun c h => by cases h
  | cons c str ih =>
    by_cases hc : c = token
    · rcases ih with hall | ⟨a, w, rest, rfl, ha, hw, hne, hr⟩
      · refine .inl fun d hd => ?_
        rcases List.mem_cons.1 hd with rfl | hd
        · exact hc
        · exact hall d hd
      · refine .inr ⟨c :: a, w, rest, rfl, fun d hd => ?_, hw, hne, hr⟩
        rcases List.mem_cons.1 hd with rfl | hd
        · exact hc
        · exact ha d hd
    · refine .inr ⟨[], (c :: str).takeWhile (· != token), (c :: str).dropWhile (· != token), ?_,
        fun d hd => absurd hd List.not_mem_nil, fun d hd => ?_, ?_, ?_⟩
      · exact List.takeWhile_append_dropWhile.symm
      · simpa using List.mem_takeWhile_imp hd
      · rw [List.takeWhile_cons_of_pos (by simpa using hc)]
        exact List.cons_ne_nil _ _
      · cases hs : (c :: str).dropWhile (· != token) with
        | nil => exact .inl rfl
        | cons d rest =>
          refine .inr ⟨rest, ?_⟩
          have hd := List.head_dropWhile_not (· != token) (l := c :: str) (by rw [hs]; exact List.cons_ne_nil _ _)
          simp only [hs, List.head_cons] at hd
          simpa using hd

/-- The words of a string in front of which a word and a token character were taken off. -/
theorem wordFrom_rest {p : Nat} (h : next + a.length ≤ p) :
    wordFrom token next (a ++ rest) p = wordFrom token (next + a.length) rest p := by
  unfold wordFrom wordAt
  rw [List.drop_append, List.drop_eq_nil_of_le (by omega), List.nil_append]
  congr 2
  omega

theorem wordFrom_first (hw : ∀ c ∈ w, c ≠ token) (hrest : Ends token rest) :
    wordFrom token next (a ++ (w ++ rest)) (next + a.length) = w := by
  unfold wordFrom wordAt
  rw [Nat.add_sub_cancel_left, List.drop_left]
  rcases hrest with rfl | ⟨rest', rfl⟩
  · rw [List.append_nil]
    exact List.takeWhile_eq_self_iff.2 fun c hc => by simpa using hw c hc
  · rw [List.takeWhile_append_of_pos fun c hc => by simpa using hw c hc, List.takeWhile_cons_of_neg (by simp),
      List.append_nil]

/-- A string is not touched by a store somewhere else. -/
theorem StrAt.update {q : Nat} (h : StrAt mem next str) (hq : q < next ∨ next + str.length < q) (v : UInt8) :
    StrAt (update mem q v) next str := by
  refine ⟨fun i c hi => ?_, ?_⟩
  · have hlt := (List.getElem?_eq_some_iff.1 hi).1
    rw [update_of_ne (by omega)]
    exact h.bytes i c hi
  · rw [update_of_ne (by omega)]
    exact h.nul

/-- A word with the NUL that is stored behind it. -/
theorem StrAt.cut (h : StrAt mem next (w ++ rest)) (v : Bytes) (hv : ∀ i < next + w.length, v i = mem i)
    (hnul : v (next + w.length) = 0) : StrAt v next w := by
  refine ⟨fun i c hi => ?_, hnul⟩
  have hlt := (List.getElem?_eq_some_iff.1 hi).1
  rw [hv _ (by omega)]
  exact h.bytes i c (by rw [List.getElem?_append_left hlt]; exact hi)

/-- One more word in front. -/
theorem Left.word {mem' : Bytes} {q : Nat} (h : StrAt mem next (a ++ (w ++ token :: rest)))
    (ha : ∀ c ∈ a, c = token) (hw : ∀ c ∈ w, c ≠ token) (hne : w ≠ []) (hq : next + a.length + w.length = q)
    (hl : Left token rest (q + 1) (Function.update mem q 0) mem') : Left token (a ++ (w ++ token :: rest)) next mem mem' := by
  have hword : StrAt mem (next + a.length) (w ++ token :: rest) := h.append
  have hsame : ∀ i < q, mem' i = mem i := by
    intro i hi
    rw [hl.before i (by omega), update_of_ne (by omega)]
  have hnul : mem' q = 0 := by
    rw [hl.before q (by omega), update_self]
  constructor
  case before => exact fun i hi => hsame i (by omega)
  case behind =>
    intro i hi
    simp only [List.length_append, List.length_cons] at hi
    rw [hl.behind i (by omega), update_of_ne (by omega)]
  case words =>
    intro p hp
    rw [wordStarts_token ha, wordStarts_word hw hne, wordStarts, if_pos rfl] at hp
    rcases List.mem_cons.1 hp with rfl | hp
    · rw [wordFrom_first hw (.inr ⟨rest, rfl⟩)]
      exact hword.cut mem' (fun i hi => hsame i (by omega)) (by rw [hq]; exact hnul)
    · rw [hq] at hp
      have hle := le_of_mem_wordStarts _ _ _ _ hp
      have hsplit : a ++ (w ++ token :: rest) = (a ++ (w ++ [token])) ++ rest := by simp
      have hlen : next + (a ++ (w ++ [token])).length = q + 1 := by
        simp only [List.length_append, List.length_singleton]
        omega
      rw [hsplit, wordFrom_rest (by omega), hlen]
      exact hl.words p hp

/-- The loop from `next` on, by induction on the fuel: `argc` words are in `argv`. -/
theorem parseLoop_words {len : Nat} : ∀ (fuel : Nat) {str : List UInt8} {mem : Bytes} {argv : Argv} {argc next : Nat},
    str.length < fuel → argc ≤ maxArgNr → (0 : UInt8) ∉ str → StrAt mem next str → next + str.length = len →
    if argc + (wordStarts token false next str).length ≤ maxArgNr then
      ∃ mem', parseLoop token len fuel mem argv argc next = some ⟨(argc + (wordStarts token false next str).length : Nat),
        mem', stores argv argc (wordStarts token false next str)⟩ ∧ Left token str next mem mem'
    else parseLoop token len fuel mem argv argc next = none := by
  intro fuel
  induction fuel with
  | zero => exact fun h => absurd h (Nat.not_lt_zero _)
  | succ fuel ih =>
    intro str mem argv argc next hfuel hargc h0 h hlen
    rcases exists_word token str with hall | ⟨a, w, rest, rfl, ha, hw, hne, hrest⟩
    · have hnil : wordStarts token false next str = [] := by
        have hs := wordStarts_token hall next []
        rw [List.append_nil] at hs
        exact hs
      rw [hnil, List.length_nil, Nat.add_zero, if_pos hargc]
      exact ⟨mem, parseLoop_end h hall h0 hlen, fun _ _ => rfl, fun _ _ => rfl, fun p hp => by rw [hnil] at hp; cases hp⟩
    · have hw' : ∀ c ∈ w, c ≠ 0 ∧ c ≠ token := fun c hc => ⟨fun he => h0 (by rw [← he]; simp [hc]), hw c hc⟩
      rw [parseLoop_word h ha hw' hne hrest h0 hlen, wordStarts_token ha, wordStarts_word hw hne]
      simp only [List.length_append] at hfuel hlen
      have hpos := List.length_pos_iff.2 hne
      rcases hrest with rfl | ⟨rest, rfl⟩
      · rw [if_pos rfl, wordStarts]
        by_cases hroom : argc < maxArgNr
        · obtain ⟨fuel, rfl⟩ : ∃ n, fuel = n + 1 := ⟨fuel - 1, by omega⟩
          have hend : StrAt mem (next + a.length + w.length) [] := h.append.append
          rw [if_pos hroom, List.length_singleton, if_pos (show argc + 1 ≤ maxArgNr from hroom),
            parseLoop_end hend (fun c hc => absurd hc List.not_mem_nil) List.not_mem_nil (by simpa [Nat.add_assoc] using hlen)]
          refine ⟨mem, rfl, fun _ _ => rfl, fun _ _ => rfl, fun p hp => ?_⟩
          rw [wordStarts_token ha, wordStarts_word hw hne, wordStarts, List.mem_singleton] at hp
          rw [hp, wordFrom_first hw (.inl rfl)]
          exact h.append.cut mem (fun _ _ => rfl) hend.nul
        · rw [if_neg hroom, if_neg (by simp only [List.length_singleton]; omega)]
      · rw [if_neg (List.cons_ne_nil _ _), wordStarts, if_pos rfl]
        by_cases hroom : argc < maxArgNr
        · rw [if_pos hroom]
          simp only [List.length_cons] at hfuel hlen
          have hrest : StrAt (Function.update mem (next + a.length + w.length) 0) (next + a.length + w.length + 1) rest :=
            h.append.append.tail.update (.inl (by omega)) 0
          have hrec := @ih rest _ (Function.update argv argc (some (next + a.length))) (argc + 1) _ (by omega) hroom
            (fun hm => h0 (by simp [hm])) hrest (by omega)
          rw [List.length_cons, ← Nat.add_assoc, Nat.add_right_comm]
          by_cases hfits : argc + 1 + (wordStarts token false (next + a.length + w.length + 1) rest).length ≤ maxArgNr
          · rw [if_pos hfits] at hrec ⊢
            obtain ⟨mem', hrun, hl⟩ := hrec
            exact ⟨mem', hrun, hl.word h ha hw hne rfl⟩
          · rw [if_neg hfits] at hrec ⊢
            exact hrec
        · rw [if_neg hroom, if_neg (by simp only [List.length_cons]; omega)]

/-! ## The call -/

theorem countArgs_run {n : Nat} : ∀ (left argc : Nat), argc ≤ n → n < argc + left →
    (∀ i, argc ≤ i → i < n → argv i ≠ none) → argv n = none → countArgs argv left argc = some n := by
  intro left
  induction left with
  | zero =>
    intro argc h1 h2
    omega
  | succ left ih =>
    intro argc h1 h2 hall hn
    rw [countArgs]
    by_cases he : argc = n
    · rw [he, if_pos hn]
    · rw [if_neg (hall argc (Nat.le_refl _) (by omega))]
      exact ih (argc + 1) (by omega) (by omega) (fun i hi => hall i (by omega)) hn

theorem countArgs_lt {n : Nat} : ∀ (left argc : Nat), countArgs argv left argc = some n → n < argc + left := by
  intro left
  induction left with
  | zero =>
    intro argc h
    cases h
  | succ left ih =>
    intro argc h
    rw [countArgs] at h
    split at h
    · cases h
      omega
    · have := ih _ h
      omega

/-- `cmd_parse` on a string without NUL in it. -/
theorem cmdParse_run (h0 : (0 : UInt8) ∉ str) (h : StrAt mem 0 str) (argv : Argv) :
    if (wordStarts token false 0 str).length ≤ maxArgNr then
      ∃ mem', cmdParse mem str.length argv token = some ⟨((wordStarts token false 0 str).length : Nat), mem',
        stores (fun i => if i < maxArgNr then none else argv i) 0 (wordStarts token false 0 str)⟩ ∧
        Left token str 0 mem mem'
    else cmdParse mem str.length argv token = none := by
  have hrun := @parseLoop_words token str.length (str.length + 1) str mem (fun i => if i < maxArgNr then none else argv i) 0 0
    (Nat.lt_succ_self _) (Nat.zero_le _) h0 h (Nat.zero_add _)
  rw [Nat.zero_add] at hrun
  exact hrun

/-- With 16 words there is no NULL in `argv`, and the 17th is stored behind it. -/
theorem lt_of_parses (h0 : (0 : UInt8) ∉ str) (h : StrAt mem 0 str) (hp : Parses token str mem argv) :
    (wordStarts token false 0 str).length < maxArgNr := by
  have hrun := @cmdParse_run token mem str h0 h argv
  obtain ⟨r, hr, -, hres⟩ := hp
  by_contra hmany
  by_cases hfull : (wordStarts token false 0 str).length ≤ maxArgNr
  · rw [if_pos hfull] at hrun
    obtain ⟨mem', hok, -⟩ := hrun
    rw [hr] at hok
    cases hok
    rcases hres with hs | ⟨hneg, -⟩
    · have hlt := countArgs_lt _ _ hs.null
      omega
    · dsimp only at hneg
      omega
  · rw [if_neg hfull, hr] at hrun
    cases hrun

/-- The exact condition: a place is left for the NULL. -/
theorem cmdParse_iff (h0 : (0 : UInt8) ∉ str) (h : StrAt mem 0 str) (argv : Argv) :
    Parses token str mem argv ↔ (wordStarts token false 0 str).length < maxArgNr := by
  have hrun := @cmdParse_run token mem str h0 h argv
  constructor
  · exact lt_of_parses h0 h
  · intro hlt
    rw [if_pos (Nat.le_of_lt hlt)] at hrun
    obtain ⟨mem', hok, hl⟩ := hrun
    generalize hst : wordStarts token false 0 str = st at *
    have hargv : ∀ i < maxArgNr, stores (fun i => if i < maxArgNr then none else argv i) 0 st i = st[i]? := by
      intro i hi
      rw [stores_apply]
      by_cases hin : 0 ≤ i ∧ i < 0 + st.length
      · rw [if_pos hin]
        rfl
      · rw [if_neg hin, if_pos hi, List.getElem?_eq_none (by omega)]
    have hnone : stores (fun i => if i < maxArgNr then none else argv i) 0 st st.length = none :=
      (hargv _ hlt).trans (List.getElem?_eq_none (Nat.le_refl _))
    have hsome : ∀ i < st.length, stores (fun i => if i < maxArgNr then none else argv i) 0 st i ≠ none := by
      intro i hi
      rw [hargv i (by omega), List.getElem?_eq_getElem hi]
      exact Option.some_ne_none _
    have hout : ∀ i, maxArgNr ≤ i → stores (fun i => if i < maxArgNr then none else argv i) 0 st i = argv i := by
      intro i hi
      rw [stores_apply, if_neg (by omega), if_neg (by omega)]
    refine ⟨_, hok, fun i hi => hl.behind i (by omega), .inl ?_⟩
    rw [← hst] at *
    exact ⟨rfl, hargv, hl.words, countArgs_run _ _ (Nat.zero_le _) (by omega) (fun i _ hi => hsome i hi) hnone, hout⟩

/-- A string at the start of memory. -/
def ofStr (str : List UInt8) : Bytes := fun i => str.getD i 0

theorem str_ofStr (str : List UInt8) : StrAt (ofStr str) 0 str := by
  refine ⟨fun i c hi => ?_, ?_⟩
  · unfold ofStr
    rw [Nat.zero_add, List.getD_eq_getElem?_getD, hi]
    rfl
  · unfold ofStr
    rw [Nat.zero_add, List.getD_eq_getElem?_getD, List.getElem?_eq_none (Nat.le_refl _)]
    rfl

/-- "ls -l", with blanks in front and behind. -/
theorem cmdParse_iff_ls : Parses 0x20 [0x20, 0x6c, 0x73, 0x20, 0x20, 0x2d, 0x6c, 0x20]
    (ofStr [0x20, 0x6c, 0x73, 0x20, 0x20, 0x2d, 0x6c, 0x20]) (fun _ => none) :=
  (cmdParse_iff (by decide) (str_ofStr _) _).2 (by decide)

/-- Sixteen words fill `argv`. -/
theorem cmdParse_full : ¬ ∀ (token : UInt8) (str : List UInt8) (mem : Bytes) (argv : Argv), (0 : UInt8) ∉ str →
    StrAt mem 0 str → Parses token str mem argv := by
  intro h
  have hlt := lt_of_parses (by decide) (str_ofStr _)
    (h 0x20 (List.replicate 16 [0x61, 0x20]).flatten _ (fun _ => none) (by decide) (str_ofStr _))
  revert hlt
  decide

end

end Enix.Shell
