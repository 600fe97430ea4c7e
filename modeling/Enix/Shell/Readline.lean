import Enix.Core.Bytes
import Mathlib.Logic.Function.Basic

/-!
# Reading a line (`shell/shell.c:30-78`)

`readline` as `my_shell` calls it: `buf` is `cmd_line`, and standard input the
keyboard, from which `read` always gets its character. Each character is stored at the
cursor first and looked at there. What goes to the screen is left out.

* `edit`, `typedLine`: the line that the characters describe.
* `readline_step`: one character, as long as the line is shorter than the array.
* `readline_iff`: `readline` gives that line exactly if no character comes after the
  128th of a line.
-/
set_option autoImplicit false

namespace Enix.Shell
open Enix.Core Function

/-- mirrors src/shell/shell.c:12 -/
def cmdLen : Nat := 128

def backspace : UInt8 := 0x08
/-- `l - a` -/
def ctrlL : UInt8 := 0x0b
/-- `u - a` -/
def ctrlU : UInt8 := 0x14

/-- Line feed or carriage return. -/
def Eol (c : UInt8) : Prop := c = 0x0a ∨ c = 0x0d

instance (c : UInt8) : Decidable (Eol c) := inferInstanceAs (Decidable (_ ∨ _))

/-- How far `readline` gets with the characters there are. -/
inductive Reading where
  | waiting (buf : Bytes) (pos : Nat)
  | line (buf : Bytes)
  | noEnter (buf : Bytes)

/-- mirrors src/shell/shell.c:64-69 -/
def clearLine : (pos : Nat) → Bytes → Bytes
  | 0, buf => buf
  | pos + 1, buf => clearLine pos (update buf (pos + 1) 0)

/-- `none` is an access outside `cmd_line`, or a cursor in front of it.
mirrors src/shell/shell.c:34-76 -/
def readLoop (count : Nat) : (stream : List UInt8) → (buf : Bytes) → (pos : Nat) → Option Reading
  | [], buf, pos => some (.waiting buf pos)
  | c :: stream, buf, pos =>
    if pos < cmdLen then
      let buf := update buf pos c
      if pos < count then
        if Eol (buf pos) then some (.line (update buf pos 0))
        else if buf pos = backspace then
          if buf 0 ≠ backspace then
            if 0 < pos then readLoop count stream buf (pos - 1) else none
          else readLoop count stream buf pos
        else if buf pos = ctrlL then readLoop count stream (update buf pos 0) pos
        else if buf pos = ctrlU then readLoop count stream (clearLine pos buf) 0
        else readLoop count stream buf (pos + 1)
      else some (.noEnter buf)
    else none

/-- mirrors src/shell/shell.c:30-78 (`readline`) -/
def readline (buf : Bytes) (count : Nat) (stream : List UInt8) : Option Reading :=
  if 0 < count then readLoop count stream buf 0 else none

/-! ## The editor -/

def edit (text : List UInt8) (c : UInt8) : List UInt8 :=
  if c = backspace then text.dropLast else if c = ctrlU then [] else if c = ctrlL then text else text ++ [c]

/-- The line that a stream describes, up to the first end of line. -/
def typedLine (stream : List UInt8) : List UInt8 := (stream.takeWhile fun c => !decide (Eol c)).foldl edit []

/-- The buffer holds the line, with a NUL behind it. -/
structure Holds (buf : Bytes) (text : List UInt8) : Prop where
  bytes : ∀ i c, text[i]? = some c → buf i = c
  nul : buf text.length = 0

/-- What `readline` is for: on an end of line the buffer holds the line, and nothing
outside the buffer is accessed. -/
def Reads (stream : List UInt8) (buf : Bytes) : Prop :=
  if stream.any (fun c => decide (Eol c)) = true then
    ∃ buf', readline buf cmdLen stream = some (.line buf') ∧ Holds buf' (typedLine stream) ∧
      (typedLine stream).length < cmdLen
  else ∃ buf' pos, readline buf cmdLen stream = some (.waiting buf' pos)

/-- No character comes, not even the end of line, when the line has 128 already. -/
def Fits (stream : List UInt8) : Prop :=
  ∀ pre c post, stream = pre ++ c :: post → (∀ x ∈ pre, ¬ Eol x) → (pre.foldl edit []).length < cmdLen

section
variable {buf : Bytes} {text stream : List UInt8} {c : UInt8} {pos : Nat}

/-- The cursor is behind the line. No backspace is ever part of one. -/
structure Editing (buf : Bytes) (text : List UInt8) : Prop where
  bytes : ∀ i c, text[i]? = some c → buf i = c
  plain : ∀ c ∈ text, c ≠ backspace

theorem Editing.nil (buf : Bytes) : Editing buf [] :=
  ⟨fun i c h => by simp at h, fun c h => by simp at h⟩

/-- A character at the cursor. -/
theorem Editing.store (h : Editing buf text) (c : UInt8) : Editing (update buf text.length c) text := by
  refine ⟨fun i d hi => ?_, h.plain⟩
  have hlt : i < text.length := (List.getElem?_eq_some_iff.1 hi).1
  rw [update_of_ne (by omega)]
  exact h.bytes i d hi

theorem Editing.dropLast (h : Editing buf text) : Editing buf text.dropLast := by
  refine ⟨fun i d hi => ?_, fun d hd => h.plain d (List.dropLast_subset text hd)⟩
  rw [List.getElem?_dropLast] at hi
  split at hi
  · exact h.bytes i d hi
  · cases hi

theorem Editing.append (h : Editing buf text) (hc : c ≠ backspace) (hb : buf text.length = c) :
    Editing buf (text ++ [c]) := by
  refine ⟨fun i d hi => ?_, fun d hd => ?_⟩
  · rw [List.getElem?_append] at hi
    split at hi
    · exact h.bytes i d hi
    · obtain ⟨hlt, hd⟩ := List.getElem?_eq_some_iff.1 hi
      have hi0 : i = text.length := by
        rw [List.length_singleton] at hlt
        omega
      subst hi0
      rw [hb]
      simpa using hd
  · rcases List.mem_append.1 hd with hd | hd
    · exact h.plain d hd
    · rw [List.mem_singleton.1 hd]
      exact hc

/-- The guard of the backspace: the first byte is a backspace just when the line is empty,
where it is the one that was typed. -/
theorem Editing.guard (h : Editing buf text) (hb : buf text.length = backspace) : buf 0 ≠ backspace ↔ 0 < text.length := by
  cases text with
  | nil => simpa using hb
  | cons d text =>
    have hd : buf 0 = d := h.bytes 0 d rfl
    have hne := h.plain d List.mem_cons_self
    rw [hd]
    simpa using hne

/-- One character that is no end of line. -/
theorem readLoop_edit (h : Editing buf text) (hlt : text.length < cmdLen) (hc : ¬ Eol c) (stream : List UInt8) :
    ∃ buf', Editing buf' (edit text c) ∧
      readLoop cmdLen (c :: stream) buf text.length = readLoop cmdLen stream buf' (edit text c).length := by
  have hs := h.store c
  have hat : update buf text.length c text.length = c := update_self ..
  rw [readLoop, if_pos hlt]
  dsimp only
  rw [if_pos hlt, hat, if_neg hc]
  unfold edit
  by_cases hb : c = backspace
  · rw [if_pos hb, if_pos hb]
    have hg := hs.guard (hat.trans hb)
    by_cases hpos : 0 < text.length
    · rw [if_pos (hg.2 hpos), if_pos hpos, List.length_dropLast]
      exact ⟨_, hs.dropLast, rfl⟩
    · have hnil : text = [] := List.length_eq_zero_iff.1 (by omega)
      rw [if_neg (mt hg.1 hpos)]
      subst hnil
      exact ⟨_, hs, rfl⟩
  · rw [if_neg hb, if_neg hb]
    by_cases hl : c = ctrlL
    · rw [if_pos hl, if_neg (by rw [hl]; decide), if_pos hl]
      exact ⟨_, hs.store 0, rfl⟩
    · by_cases hu : c = ctrlU
      · simp only [if_neg hl, if_pos hu]
        exact ⟨_, Editing.nil _, rfl⟩
      · simp only [if_neg hl, if_neg hu, List.length_append]
        exact ⟨_, hs.append hb hat, rfl⟩

/-- The end of line. -/
theorem readLoop_eol (h : Editing buf text) (hlt : text.length < cmdLen) (hc : Eol c) (stream : List UInt8) :
    ∃ buf', Holds buf' text ∧ readLoop cmdLen (c :: stream) buf text.length = some (.line buf') := by
  have hs := (h.store c).store 0
  rw [readLoop, if_pos hlt]
  dsimp only
  rw [if_pos hlt, update_self, if_pos hc]
  exact ⟨_, ⟨hs.bytes, update_self ..⟩, rfl⟩

/-- The 129th character is stored behind the array. -/
theorem readLoop_full (hfull : cmdLen ≤ pos) (c : UInt8) (stream : List UInt8) (buf : Bytes) :
    readLoop cmdLen (c :: stream) buf pos = none := by
  rw [readLoop, if_neg (by omega)]

/-- `Reads` and `Fits` from a line on. -/
def ReadsFrom (text stream : List UInt8) (buf : Bytes) : Prop :=
  if stream.any (fun c => decide (Eol c)) = true then
    ∃ buf', readLoop cmdLen stream buf text.length = some (.line buf') ∧
      Holds buf' ((stream.takeWhile fun c => !decide (Eol c)).foldl edit text) ∧
      ((stream.takeWhile fun c => !decide (Eol c)).foldl edit text).length < cmdLen
  else ∃ buf' pos, readLoop cmdLen stream buf text.length = some (.waiting buf' pos)

def FitsFrom (text stream : List UInt8) : Prop :=
  ∀ pre c post, stream = pre ++ c :: post → (∀ x ∈ pre, ¬ Eol x) → (pre.foldl edit text).length < cmdLen

theorem fitsFrom_cons : FitsFrom text (c :: stream) ↔
    text.length < cmdLen ∧ (¬ Eol c → FitsFrom (edit text c) stream) := by
  constructor
  · intro h
    refine ⟨h [] c stream rfl (fun x hx => by simp at hx), fun hc pre d post he hpre => ?_⟩
    refine h (c :: pre) d post (by rw [he]; rfl) fun x hx => ?_
    rcases List.mem_cons.1 hx with rfl | hx
    · exact hc
    · exact hpre x hx
  · rintro ⟨hlt, hrest⟩ pre d post he hpre
    cases pre with
    | nil => exact hlt
    | cons x pre =>
      obtain ⟨rfl, htail⟩ := List.cons.inj he
      exact hrest (hpre c List.mem_cons_self) pre d post htail fun y hy => hpre y (List.mem_cons_of_mem _ hy)

/-- The whole loop, by induction on the stream. -/
theorem readsFrom_iff : ∀ (stream : List UInt8) {text : List UInt8} {buf : Bytes}, Editing buf text →
    (ReadsFrom text stream buf ↔ FitsFrom text stream) := by
  intro stream
  induction stream with
  | nil =>
    intro text buf _
    refine ⟨fun _ pre c post he => ?_, fun _ => ⟨buf, text.length, rfl⟩⟩
    simp at he
  | cons c stream ih =>
    intro text buf h
    rw [fitsFrom_cons]
    by_cases hlt : text.length < cmdLen
    · by_cases hc : Eol c
      · obtain ⟨buf', hb, hr⟩ := readLoop_eol h hlt hc stream
        refine ⟨fun _ => ⟨hlt, fun hno => absurd hc hno⟩, fun _ => ?_⟩
        unfold ReadsFrom
        rw [if_pos (by simp [hc]), List.takeWhile_cons_of_neg (by simpa using hc)]
        exact ⟨buf', hr, hb, hlt⟩
      · obtain ⟨buf', he, hr⟩ := readLoop_edit h hlt hc stream
        have hrec : ReadsFrom text (c :: stream) buf ↔ ReadsFrom (edit text c) stream buf' := by
          unfold ReadsFrom
          rw [List.any_cons, decide_eq_false hc, Bool.false_or, List.takeWhile_cons_of_pos (by simpa using hc),
            List.foldl_cons, hr]
        rw [hrec, ih he]
        exact ⟨fun hf => ⟨hlt, fun _ => hf⟩, fun hf => hf.2 hc⟩
    · refine ⟨fun hr => ?_, fun hf => absurd hf.1 hlt⟩
      unfold ReadsFrom at hr
      rw [readLoop_full (by omega)] at hr
      split at hr
      · obtain ⟨_, hr, -⟩ := hr
        cases hr
      · obtain ⟨_, _, hr⟩ := hr
        cases hr

theorem reads_iff_from (stream : List UInt8) (buf : Bytes) : Reads stream buf ↔ ReadsFrom [] stream buf := Iff.rfl

/-- `readline` reads the line exactly if no character comes behind one of 128. -/
theorem readline_iff (stream : List UInt8) (buf : Bytes) : Reads stream buf ↔ Fits stream :=
  (reads_iff_from stream buf).trans (readsFrom_iff stream (Editing.nil buf))

/-- Characters that are typed and never taken back. -/
theorem foldl_edit_plain : ∀ (pre : List UInt8), (∀ c ∈ pre, c ≠ backspace ∧ c ≠ ctrlU ∧ c ≠ ctrlL) →
    ∀ text, pre.foldl edit text = text ++ pre := by
  intro pre
  induction pre with
  | nil => exact fun _ text => (List.append_nil text).symm
  | cons c pre ih =>
    intro hall text
    obtain ⟨hb, hu, hl⟩ := hall c List.mem_cons_self
    have hone : edit text c = text ++ [c] := by
      unfold edit
      rw [if_neg hb, if_neg hu, if_neg hl]
    rw [List.foldl_cons, hone, ih fun d hd => hall d (List.mem_cons_of_mem _ hd), List.append_assoc]
    rfl

/-- 128 characters and the end of the line. -/
theorem readline_overrun : ¬ ∀ (stream : List UInt8) (buf : Bytes), Reads stream buf := by
  intro h
  have hreads := (reads_iff_from (List.replicate 128 0x61 ++ [0x0d]) zeros).1 (h _ zeros)
  have hfit := (readsFrom_iff _ (Editing.nil zeros)).1 hreads
  have hlt := hfit (List.replicate 128 0x61) 0x0d [] rfl fun x hx => by
    rw [List.eq_of_mem_replicate hx]
    decide
  rw [foldl_edit_plain _ (fun x hx => by
    rw [List.eq_of_mem_replicate hx]
    decide), List.nil_append, List.length_replicate] at hlt
  exact absurd hlt (by decide)

end

end Enix.Shell
