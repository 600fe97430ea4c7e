import Enix.Core.Command
import Enix.Shell.Fifo

/-!
# The keyboard (`device/keyboard.c`)

The handler gets one byte of a scan code at a time. `Key` is a key of scan code set 1
by its make code, and `Board` what the fingers do: which keys are held, and how often
Caps Lock has been pressed. A `World` is keyboard, controller and driver together; the
bytes of one key come before those of the next, and readers take characters out of
`kbd_buf` between any two interrupts.

* `handler_press`, `handler_release`: the last byte of a make code and of a break code.
* `keyboard_run`: the state variables and the buffer over a whole run.
* `keyboard_pair`: of two shift keys held together one goes up.
-/
set_option autoImplicit false

namespace Enix.Device
open Enix.Core Enix.Kernel Enix.Fs Function

/-! ## The driver -/

/-- mirrors src/device/keyboard.c:28 -/
def shiftLMake : Nat := 0x2a
/-- mirrors src/device/keyboard.c:29 -/
def shiftRMake : Nat := 0x36
/-- mirrors src/device/keyboard.c:30 -/
def altLMake : Nat := 0x38
/-- mirrors src/device/keyboard.c:31 -/
def altRMake : Nat := 0xe038
/-- mirrors src/device/keyboard.c:33 -/
def ctrlLMake : Nat := 0x1d
/-- mirrors src/device/keyboard.c:34 -/
def ctrlRMake : Nat := 0xe01d
/-- mirrors src/device/keyboard.c:36 -/
def capsLockMake : Nat := 0x3a

/-- The static variables and `kbd_buf`.
mirrors src/device/keyboard.c:38-42 -/
structure Keyboard where
  ctrlStatus : Bool
  shiftStatus : Bool
  altStatus : Bool
  capsLockStatus : Bool
  extScancode : Bool
  kbdBuf : Ioqueue

/-- Without shift and with it.
mirrors src/device/keyboard.c:45-108 (`keymap`) -/
def keymap : List (UInt8 × UInt8) := [
  (0, 0), (0x1b, 0x1b),
  -- the digits, minus and equals
  (0x31, 0x21), (0x32, 0x40), (0x33, 0x23), (0x34, 0x24), (0x35, 0x25), (0x36, 0x5e), (0x37, 0x26), (0x38, 0x2a),
  (0x39, 0x28), (0x30, 0x29), (0x2d, 0x5f), (0x3d, 0x2b),
  (0x08, 0x08), (0x09, 0x09),
  -- q to p
  (0x71, 0x51), (0x77, 0x57), (0x65, 0x45), (0x72, 0x52), (0x74, 0x54), (0x79, 0x59), (0x75, 0x55), (0x69, 0x49),
  (0x6f, 0x4f), (0x70, 0x50),
  -- the square brackets, enter, ctrl_l
  (0x5b, 0x7b), (0x5d, 0x7d), (0x0d, 0x0d), (0, 0),
  -- a to l
  (0x61, 0x41), (0x73, 0x53), (0x64, 0x44), (0x66, 0x46), (0x67, 0x47), (0x68, 0x48), (0x6a, 0x4a), (0x6b, 0x4b),
  (0x6c, 0x4c),
  -- semicolon, quote, grave accent, shift_l, backslash
  (0x3b, 0x3a), (0x27, 0x22), (0x60, 0x7e), (0, 0), (0x5c, 0x7c),
  -- z to m
  (0x7a, 0x5a), (0x78, 0x58), (0x63, 0x43), (0x76, 0x56), (0x62, 0x42), (0x6e, 0x4e), (0x6d, 0x4d),
  -- comma, full stop, slash, shift_r, asterisk, alt_l, space, caps_lock
  (0x2c, 0x3c), (0x2e, 0x3e), (0x2f, 0x3f), (0, 0), (0x2a, 0x2a), (0, 0), (0x20, 0x20), (0, 0)]

/-- The column of `keymap`.
mirrors src/device/keyboard.c:162-195 -/
def withShift (scancode : Nat) (shiftDownLast capsLockLast : Bool) : Bool :=
  if scancode < 0x0e ∨ scancode = 0x29 ∨ scancode = 0x1a ∨ scancode = 0x1b ∨ scancode = 0x2b ∨ scancode = 0x27 ∨
      scancode = 0x28 ∨ scancode = 0x33 ∨ scancode = 0x34 ∨ scancode = 0x35 then
    shiftDownLast
  else if shiftDownLast = true ∧ capsLockLast = true then false
  else if shiftDownLast = true ∨ capsLockLast = true then true
  else false

/-- `l - a` and `u - a` for ctrl+l and ctrl+u.
mirrors src/device/keyboard.c:209-212 -/
def shortcut (ctrlDownLast : Bool) (curChar : UInt8) : UInt8 :=
  if ctrlDownLast = true ∧ curChar = 0x6c ∨ ctrlDownLast = true ∧ curChar = 0x75 then curChar - 0x61 else curChar

/-- `ioq_putchar` behind `ioq_full`.
mirrors src/device/keyboard.c:217-220 -/
def enqueue (curChar : UInt8) (q : Ioqueue) : Ioqueue :=
  if nextPos q.head = q.tail then q else putByte q curChar

/-- mirrors src/device/keyboard.c:225-242 -/
def controlDown (scancode : Nat) (k : Keyboard) : Keyboard :=
  if scancode = ctrlLMake ∨ scancode = ctrlRMake then { k with ctrlStatus := true }
  else if scancode = shiftLMake ∨ scancode = shiftRMake then { k with shiftStatus := true }
  else if scancode = altLMake ∨ scancode = altRMake then { k with altStatus := true }
  else if scancode = capsLockMake then { k with capsLockStatus := !k.capsLockStatus }
  else k

/-- `none` is a row that `keymap` does not have.
mirrors src/device/keyboard.c:161-243 -/
def makeCode (scancode : Nat) (k : Keyboard) : Option Keyboard :=
  let shift := withShift scancode k.shiftStatus k.capsLockStatus
  let index := scancode &&& 0x00ff
  match keymap[index]? with
  | none => none
  | some row =>
    let curChar := if shift then row.2 else row.1
    if curChar ≠ 0 then some { k with kbdBuf := enqueue (shortcut k.ctrlStatus curChar) k.kbdBuf }
    else some (controlDown index k)

/-- mirrors src/device/keyboard.c:144-155 -/
def breakCode (scancode : Nat) (k : Keyboard) : Keyboard :=
  let makeCode := scancode &&& 0xff7f
  if makeCode = ctrlLMake ∨ makeCode = ctrlRMake then { k with ctrlStatus := false }
  else if makeCode = shiftLMake ∨ makeCode = shiftRMake then { k with shiftStatus := false }
  else if makeCode = altLMake ∨ makeCode = altRMake then { k with altStatus := false }
  else k

/-- mirrors src/device/keyboard.c:111-246 (`intr_keyboard_handler`) -/
def intrKeyboardHandler (code : UInt8) (k : Keyboard) : Option Keyboard :=
  if code.toNat = 0xe0 then some { k with extScancode := true }
  else
    let scancode := if k.extScancode then 0xe000 ||| code.toNat else code.toNat
    let k := { k with extScancode := false }
    if scancode &&& 0x0080 ≠ 0 then some (breakCode scancode k)
    else if 0x00 < scancode ∧ scancode < 0x3b ∨ scancode = altRMake ∨ scancode = ctrlRMake then makeCode scancode k
    else some k

/-- mirrors src/device/keyboard.c:249-255 (`keyboard_init`) -/
def keyboardInit : Keyboard := ⟨false, false, false, false, false, ioqueueInit⟩

/-! ## Keys -/

/-- A key with the make code `code`, behind 0xe0 if `ext`. No key has a break code that
reads 0xe0. -/
structure Key where
  ext : Bool
  code : Nat
  lt : code < 0x80
  ne : code ≠ 0x60
  deriving DecidableEq

def ctrlL : Key := ⟨false, 0x1d, by decide, by decide⟩
def ctrlR : Key := ⟨true, 0x1d, by decide, by decide⟩
def shiftL : Key := ⟨false, 0x2a, by decide, by decide⟩
def shiftR : Key := ⟨false, 0x36, by decide, by decide⟩
def altL : Key := ⟨false, 0x38, by decide, by decide⟩
def altR : Key := ⟨true, 0x38, by decide, by decide⟩
def capsLock : Key := ⟨false, 0x3a, by decide, by decide⟩

/-- The other key of a left/right pair. -/
def Key.partner (k : Key) : Option Key :=
  if k = ctrlL then some ctrlR else if k = ctrlR then some ctrlL
  else if k = shiftL then some shiftR else if k = shiftR then some shiftL
  else if k = altL then some altR else if k = altR then some altL else none

/-- Pause has a make code of its own and no break code. -/
inductive Event where
  | press (k : Key)
  | release (k : Key)
  | pause

def Event.codes : Event → List UInt8
  | press k => if k.ext then [0xe0, UInt8.ofNat k.code] else [UInt8.ofNat k.code]
  | release k => if k.ext then [0xe0, UInt8.ofNat (k.code + 0x80)] else [UInt8.ofNat (k.code + 0x80)]
  | pause => [0xe1, 0x1d, 0x45, 0xe1, 0x9d, 0xc5]

/-- A key that is pressed while it is held repeats its make code. -/
structure Board where
  held : Key → Bool
  capsPresses : Nat

def Board.after (b : Board) : Event → Board
  | .press k => ⟨update b.held k true, if k = capsLock ∧ b.held k = false then b.capsPresses + 1 else b.capsPresses⟩
  | .release k => { b with held := update b.held k false }
  | .pause => b

/-- The variables are what the keys are. -/
structure Shows (b : Board) (k : Keyboard) : Prop where
  ctrl : k.ctrlStatus = (b.held ctrlL || b.held ctrlR)
  shift : k.shiftStatus = (b.held shiftL || b.held shiftR)
  alt : k.altStatus = (b.held altL || b.held altR)
  caps : k.capsLockStatus = decide (b.capsPresses % 2 = 1)

/-! ## Characters -/

def isLetter (c : UInt8) : Bool := decide (0x61 ≤ c ∧ c ≤ 0x7a)

/-- The character of a key with the characters of `row` on it: Caps Lock turns the letters
over and nothing else. -/
def select (shift caps ctrl : Bool) (row : UInt8 × UInt8) : UInt8 :=
  shortcut ctrl (if (if isLetter row.1 then shift != caps else shift) then row.2 else row.1)

/-- What a byte types: a make code of one byte whose row has characters is printable. -/
def typed (code : UInt8) (kbd : Keyboard) : Option UInt8 :=
  if kbd.extScancode then none
  else match keymap[code.toNat]? with
    | none => none
    | some row => if row.1 = 0 then none else some (select kbd.shiftStatus kbd.capsLockStatus kbd.ctrlStatus row)

/-! ## Runs -/

/-- `coming` are the bytes that the handler has not read, and `next` the keys when it has. -/
structure World where
  board : Board
  next : Board
  coming : List UInt8
  kbd : Keyboard

inductive Act where
  | key (e : Event)
  | interrupt
  | getchar

def Act.run : Act → Cmd World Halt Unit
  | key e => do
    Cmd.guard ((← Cmd.read (·.coming)) = []) .hang
    Cmd.change fun w => { w with next := w.board.after e, coming := e.codes }
  | interrupt => do
    match ← Cmd.read (·.coming) with
    | [] => Cmd.stop .hang
    | code :: coming =>
      let kbd ← Cmd.get (intrKeyboardHandler code (← Cmd.read (·.kbd))) .ub
      Cmd.change fun w => { w with board := if coming = [] then w.next else w.board, coming := coming, kbd := kbd }
  | getchar => do
    Cmd.guard ((← Cmd.read (·.kbd.kbdBuf.head)) ≠ (← Cmd.read (·.kbd.kbdBuf.tail))) .hang
    Cmd.change fun w => { w with kbd := { w.kbd with kbdBuf := { w.kbd.kbdBuf with tail := nextPos w.kbd.kbdBuf.tail } } }

def boot : World := ⟨⟨fun _ => false, 0⟩, ⟨fun _ => false, 0⟩, [], keyboardInit⟩

/-- No key goes up while the other one of its pair is held, Caps Lock does not repeat, and
Pause is left alone. -/
def Plain (b : Board) : Event → Prop
  | .press k => k = capsLock → b.held k = false
  | .release k => ∀ k', k.partner = some k' → b.held k' = false
  | .pause => False

def PlainAct : Act → World → Prop
  | .key e, w => Plain w.board e
  | _, _ => True

/-- The scan code that the handler puts together. -/
def Key.scancode (k : Key) : Nat := if k.ext then 0xe000 + k.code else k.code

section
variable {k : Key} {kbd kbd' : Keyboard} {b : Board} {e : Event} {w w' : World} {acts : List Act} {c : Nat}

theorem scancode_inj {k k' : Key} : k.scancode = k'.scancode ↔ k = k' := by
  obtain ⟨ext, code, hlt, hne⟩ := k
  obtain ⟨ext', code', hlt', hne'⟩ := k'
  unfold Key.scancode
  cases ext <;> cases ext' <;> simp <;> omega

theorem bits_make : ∀ c < 0x80, c &&& 0x80 = 0 ∧ 0xe000 ||| c = 0xe000 + c ∧ (0xe000 + c) &&& 0x80 = 0 ∧
    c &&& 0xff = c := by
  decide

theorem bits_break : ∀ c < 0x80, (c + 0x80) &&& 0x80 ≠ 0 ∧ (c + 0x80) &&& 0xff7f = c ∧
    (0xe000 ||| (c + 0x80)) &&& 0x80 ≠ 0 ∧ (0xe000 ||| (c + 0x80)) &&& 0xff7f = 0xe000 + c := by
  decide

/-- The row of a make code. -/
def rowOf (c : Nat) : UInt8 × UInt8 := keymap.getD c (0, 0)

/-- The make codes without a character. -/
def Mute (c : Nat) : Prop := c = 0 ∨ c = 0x1d ∨ c = 0x2a ∨ c = 0x36 ∨ c = 0x38 ∨ c = 0x3a

instance (c : Nat) : Decidable (Mute c) := inferInstanceAs (Decidable (_ ∨ _))

theorem keymap_row : ∀ c < 0x3b, keymap[c]? = some (rowOf c) := by
  decide

theorem keymap_end : 0x3b ≤ c → keymap[c]? = none := fun h => List.getElem?_eq_none h

/-- The two columns are empty for the same keys. -/
theorem mute_iff : ∀ c < 0x3b, ((rowOf c).1 = 0 ↔ Mute c) ∧ ((rowOf c).2 = 0 ↔ Mute c) := by
  decide

/-- The handler's choice between the columns is that by letters. -/
theorem column_eq : ∀ c < 0x3b, ∀ shift caps : Bool, (if withShift c shift caps then (rowOf c).2 else (rowOf c).1) =
    if (if isLetter (rowOf c).1 then shift != caps else shift) then (rowOf c).2 else (rowOf c).1 := by
  decide

/-! ## The last byte of a code -/

/-- A key goes down. -/
def Keyboard.down (k : Key) (kbd : Keyboard) : Keyboard where
  ctrlStatus := kbd.ctrlStatus || decide (k = ctrlL ∨ k = ctrlR)
  shiftStatus := kbd.shiftStatus || decide (k = shiftL ∨ k = shiftR)
  altStatus := kbd.altStatus || decide (k = altL ∨ k = altR)
  capsLockStatus := kbd.capsLockStatus != decide (k = capsLock)
  extScancode := false
  kbdBuf := match typed (UInt8.ofNat k.code) kbd with
    | none => kbd.kbdBuf
    | some c => enqueue c kbd.kbdBuf

/-- A key goes up. -/
def Keyboard.up (k : Key) (kbd : Keyboard) : Keyboard :=
  { kbd with
    ctrlStatus := kbd.ctrlStatus && !decide (k = ctrlL ∨ k = ctrlR)
    shiftStatus := kbd.shiftStatus && !decide (k = shiftL ∨ k = shiftR)
    altStatus := kbd.altStatus && !decide (k = altL ∨ k = altR)
    extScancode := false }

theorem toNat_code (h : c < 0x100) : (UInt8.ofNat c).toNat = c := by
  rw [UInt8.toNat_ofNat']
  omega

/-- `scancode` behind 0xe0 or not. -/
theorem scancode_make (k : Key) : (if k.ext then 0xe000 ||| k.code else k.code) = k.scancode := by
  unfold Key.scancode
  rw [(bits_make k.code k.lt).2.1]

/-- The pairs have no key in common. -/
theorem pairs_apart (k : Key) : ((k = ctrlL ∨ k = ctrlR) → ¬ (k = shiftL ∨ k = shiftR)) ∧
    ((k = ctrlL ∨ k = ctrlR) → ¬ (k = altL ∨ k = altR)) ∧ ((k = shiftL ∨ k = shiftR) → ¬ (k = altL ∨ k = altR)) := by
  refine ⟨?_, ?_, ?_⟩
  all_goals
    rintro (rfl | rfl)
    · decide
    · decide

theorem handler_ext (kbd : Keyboard) : intrKeyboardHandler 0xe0 kbd = some { kbd with extScancode := true } := rfl

theorem handler_release (k : Key) (hext : kbd.extScancode = k.ext) :
    intrKeyboardHandler (UInt8.ofNat (k.code + 0x80)) kbd = some (kbd.up k) := by
  have hlt := k.lt
  have hne := k.ne
  obtain ⟨hb, hm, hb', hm'⟩ := bits_break k.code k.lt
  have hcode : (if k.ext then 0xe000 ||| (k.code + 0x80) else k.code + 0x80) &&& 0x0080 ≠ 0 ∧
      (if k.ext then 0xe000 ||| (k.code + 0x80) else k.code + 0x80) &&& 0xff7f = k.scancode := by
    unfold Key.scancode
    cases k.ext with
    | true => exact ⟨hb', hm'⟩
    | false => exact ⟨hb, hm⟩
  have h : ∀ k', k.scancode = Key.scancode k' ↔ k = k' := fun k' => scancode_inj
  unfold intrKeyboardHandler
  rw [toNat_code (by omega), if_neg (by omega), hext]
  dsimp only
  rw [if_pos hcode.1]
  unfold breakCode
  rw [hcode.2]
  dsimp only
  change some (if k.scancode = ctrlL.scancode ∨ k.scancode = ctrlR.scancode then _
    else if k.scancode = shiftL.scancode ∨ k.scancode = shiftR.scancode then _
    else if k.scancode = altL.scancode ∨ k.scancode = altR.scancode then _ else _) = _
  simp only [h]
  obtain ⟨hcs, hca, hsa⟩ := pairs_apart k
  unfold Keyboard.up
  by_cases hc : k = ctrlL ∨ k = ctrlR
  · rw [if_pos hc, decide_eq_true hc, decide_eq_false (hcs hc), decide_eq_false (hca hc)]
    simp
  · rw [if_neg hc, decide_eq_false hc]
    by_cases hs : k = shiftL ∨ k = shiftR
    · rw [if_pos hs, decide_eq_true hs, decide_eq_false (hsa hs)]
      simp
    · rw [if_neg hs, decide_eq_false hs]
      by_cases ha : k = altL ∨ k = altR
      · rw [if_pos ha, decide_eq_true ha]
        simp
      · rw [if_neg ha, decide_eq_false ha]
        simp

/-- A key that is in none of the pairs and is not Caps Lock. -/
structure Neutral (k : Key) : Prop where
  ctrl : ¬ (k = ctrlL ∨ k = ctrlR)
  shift : ¬ (k = shiftL ∨ k = shiftR)
  alt : ¬ (k = altL ∨ k = altR)
  caps : k ≠ capsLock

theorem Neutral.down (h : Neutral k) : kbd.down k = { kbd with
    extScancode := false
    kbdBuf := match typed (UInt8.ofNat k.code) kbd with
      | none => kbd.kbdBuf
      | some c => enqueue c kbd.kbdBuf } := by
  unfold Keyboard.down
  rw [decide_eq_false h.ctrl, decide_eq_false h.shift, decide_eq_false h.alt, decide_eq_false h.caps]
  simp

theorem makeCode_mute {scancode : Nat} (hi : scancode &&& 0xff = c) (hc : c < 0x3b) (hm : Mute c) :
    makeCode scancode kbd = some (controlDown c kbd) := by
  have h1 := (mute_iff c hc).1.2 hm
  have h2 := (mute_iff c hc).2.2 hm
  unfold makeCode
  rw [hi]
  dsimp only
  rw [keymap_row c hc]
  dsimp only
  rw [h1, h2, ite_self, if_neg (by decide)]

theorem makeCode_char (hc : c < 0x3b) (hm : ¬ Mute c) : makeCode c kbd =
    some { kbd with
      kbdBuf := enqueue (select kbd.shiftStatus kbd.capsLockStatus kbd.ctrlStatus (rowOf c)) kbd.kbdBuf } := by
  have hi := (bits_make c (by omega)).2.2.2
  have h1 := mt (mute_iff c hc).1.1 hm
  have h2 := mt (mute_iff c hc).2.1 hm
  unfold makeCode
  rw [hi]
  dsimp only
  rw [keymap_row c hc]
  dsimp only
  rw [if_pos (by split <;> assumption), column_eq c hc]
  rfl

/-- The handler on the last byte of a make code. -/
theorem handler_make (k : Key) (hext : kbd.extScancode = k.ext) : intrKeyboardHandler (UInt8.ofNat k.code) kbd =
    if 0x00 < k.scancode ∧ k.scancode < 0x3b ∨ k.scancode = altRMake ∨ k.scancode = ctrlRMake then
      makeCode k.scancode { kbd with extScancode := false }
    else some { kbd with extScancode := false } := by
  have hlt := k.lt
  obtain ⟨hb, -, hb', -⟩ := bits_make k.code k.lt
  have hbit : k.scancode &&& 0x0080 = 0 := by
    unfold Key.scancode
    cases k.ext with
    | true => exact hb'
    | false => exact hb
  unfold intrKeyboardHandler
  rw [toNat_code (by omega), if_neg (by omega), hext]
  dsimp only
  rw [scancode_make, if_neg (by simpa using hbit)]

/-- The makes of the seven keys. -/
theorem handler_control (hk : k = ctrlL ∨ k = ctrlR ∨ k = shiftL ∨ k = shiftR ∨ k = altL ∨ k = altR ∨ k = capsLock)
    (hext : kbd.extScancode = k.ext) : intrKeyboardHandler (UInt8.ofNat k.code) kbd = some (kbd.down k) := by
  have hall : ∀ c, k.scancode &&& 0xff = c → Mute c → c < 0x3b →
      (0x00 < k.scancode ∧ k.scancode < 0x3b ∨ k.scancode = altRMake ∨ k.scancode = ctrlRMake) →
      intrKeyboardHandler (UInt8.ofNat k.code) kbd = some (controlDown c { kbd with extScancode := false }) := by
    intro c hi hm hc hin
    rw [handler_make k hext, if_pos hin, makeCode_mute hi hc hm]
  obtain ⟨ctrl, shift, alt, caps, ext, buf⟩ := kbd
  rcases hk with rfl | rfl | rfl | rfl | rfl | rfl | rfl
  · rw [hall 0x1d (by decide) (by decide) (by decide) (by decide)]
    cases ctrl <;> cases shift <;> cases alt <;> cases caps <;> cases ext <;> rfl
  · rw [hall 0x1d (by decide) (by decide) (by decide) (by decide)]
    cases ctrl <;> cases shift <;> cases alt <;> cases caps <;> cases ext <;> rfl
  · rw [hall 0x2a (by decide) (by decide) (by decide) (by decide)]
    cases ctrl <;> cases shift <;> cases alt <;> cases caps <;> cases ext <;> rfl
  · rw [hall 0x36 (by decide) (by decide) (by decide) (by decide)]
    cases ctrl <;> cases shift <;> cases alt <;> cases caps <;> cases ext <;> rfl
  · rw [hall 0x38 (by decide) (by decide) (by decide) (by decide)]
    cases ctrl <;> cases shift <;> cases alt <;> cases caps <;> cases ext <;> rfl
  · rw [hall 0x38 (by decide) (by decide) (by decide) (by decide)]
    cases ctrl <;> cases shift <;> cases alt <;> cases caps <;> cases ext <;> rfl
  · rw [hall 0x3a (by decide) (by decide) (by decide) (by decide)]
    cases ctrl <;> cases shift <;> cases alt <;> cases caps <;> cases ext <;> rfl

theorem typed_plain (hext : kbd.extScancode = false) (hc : c < 0x80) : typed (UInt8.ofNat c) kbd =
    if c < 0x3b ∧ ¬ Mute c then some (select kbd.shiftStatus kbd.capsLockStatus kbd.ctrlStatus (rowOf c)) else none := by
  unfold typed
  rw [hext, toNat_code (by omega), if_neg (by decide)]
  by_cases hlt : c < 0x3b
  · rw [keymap_row c hlt]
    dsimp only
    by_cases hm : Mute c
    · rw [if_pos ((mute_iff c hlt).1.2 hm), if_neg fun h => h.2 hm]
    · rw [if_neg (mt (mute_iff c hlt).1.1 hm), if_pos ⟨hlt, hm⟩]
  · rw [keymap_end (by omega), if_neg fun h => hlt h.1]

theorem typed_ext (hext : kbd.extScancode = true) (code : UInt8) : typed code kbd = none := by
  unfold typed
  rw [hext, if_pos rfl]

theorem handler_press (k : Key) (hext : kbd.extScancode = k.ext) :
    intrKeyboardHandler (UInt8.ofNat k.code) kbd = some (kbd.down k) := by
  by_cases hk : k = ctrlL ∨ k = ctrlR ∨ k = shiftL ∨ k = shiftR ∨ k = altL ∨ k = altR ∨ k = capsLock
  · exact handler_control hk hext
  · have hn : Neutral k := by
      simp only [not_or] at hk
      obtain ⟨h1, h2, h3, h4, h5, h6, h7⟩ := hk
      exact ⟨not_or.2 ⟨h1, h2⟩, not_or.2 ⟨h3, h4⟩, not_or.2 ⟨h5, h6⟩, h7⟩
    have hlt := k.lt
    have hr : k.scancode ≠ ctrlRMake := fun h => hn.ctrl (.inr (scancode_inj.1 h))
    have ha : k.scancode ≠ altRMake := fun h => hn.alt (.inr (scancode_inj.1 h))
    have hne : ∀ k' : Key, k ≠ k' → k.scancode ≠ k'.scancode := fun k' h he => h (scancode_inj.1 he)
    rw [handler_make k hext, hn.down]
    cases hx : k.ext with
    | true =>
      have hge : 0xe000 ≤ k.scancode := by
        unfold Key.scancode
        rw [hx]
        simp
      rw [typed_ext (hext.trans hx), if_neg (by omega)]
    | false =>
      have hsc : k.scancode = k.code := by
        unfold Key.scancode
        rw [hx]
        simp
      rw [typed_plain (hext.trans hx) hlt]
      by_cases hin : 0 < k.code ∧ k.code < 0x3b
      · have hm : ¬ Mute k.code := by
          have h1 := hne _ fun h => hn.ctrl (.inl h)
          have h2 := hne _ fun h => hn.shift (.inl h)
          have h3 := hne _ fun h => hn.shift (.inr h)
          have h4 := hne _ fun h => hn.alt (.inl h)
          have h5 := hne _ hn.caps
          rw [hsc] at h1 h2 h3 h4 h5
          rintro (h | h | h | h | h | h)
          · omega
          · exact h1 h
          · exact h2 h
          · exact h3 h
          · exact h4 h
          · exact h5 h
        rw [if_pos (by rw [hsc]; exact .inl hin), if_pos ⟨hin.2, hm⟩, hsc, makeCode_char hin.2 hm]
      · have hno : ¬ (k.code < 0x3b ∧ ¬ Mute k.code) := by
          rintro ⟨h1, h2⟩
          refine h2 (.inl ?_)
          omega
        rw [if_neg (by rw [hsc] at hr ha ⊢; omega), if_neg hno]

/-! ## The variables and the keys -/

theorem update_pair {held : Key → Bool} {l r : Key} (h : ¬ (k = l ∨ k = r)) (v : Bool) :
    (update held k v l || update held k v r) = (held l || held r) := by
  rw [not_or] at h
  rw [update_of_ne (Ne.symm h.1), update_of_ne (Ne.symm h.2)]

theorem press_pair (held : Key → Bool) (k l r : Key) : (update held k true l || update held k true r) =
    ((held l || held r) || decide (k = l ∨ k = r)) := by
  by_cases h : k = l ∨ k = r
  · rw [decide_eq_true h, Bool.or_true]
    rcases h with rfl | rfl
    · rw [update_self, Bool.true_or]
    · rw [update_self, Bool.or_true]
  · rw [update_pair h, decide_eq_false h, Bool.or_false]

/-- A key of a pair goes up: what is left is the other one. -/
theorem release_pair {held : Key → Bool} {l r : Key} (hne : l ≠ r) (hl : k = l → held r = false)
    (hr : k = r → held l = false) : (update held k false l || update held k false r) =
    ((held l || held r) && !decide (k = l ∨ k = r)) := by
  by_cases h : k = l ∨ k = r
  · rw [decide_eq_true h, Bool.not_true, Bool.and_false]
    rcases h with rfl | rfl
    · rw [update_self, update_of_ne (Ne.symm hne), hl rfl, Bool.or_false]
    · rw [update_self, update_of_ne hne, hr rfl, Bool.or_false]
  · rw [update_pair h, decide_eq_false h, Bool.not_false, Bool.and_true]

theorem Shows.press (h : Shows b kbd) (hp : Plain b (.press k)) : Shows (b.after (.press k)) (kbd.down k) := by
  constructor
  case ctrl => exact (congrArg (· || _) h.ctrl).trans (press_pair b.held k ctrlL ctrlR).symm
  case shift => exact (congrArg (· || _) h.shift).trans (press_pair b.held k shiftL shiftR).symm
  case alt => exact (congrArg (· || _) h.alt).trans (press_pair b.held k altL altR).symm
  case caps =>
    change (kbd.capsLockStatus != decide (k = capsLock)) = decide ((b.after (.press k)).capsPresses % 2 = 1)
    by_cases hk : k = capsLock
    · have hn : (b.after (.press k)).capsPresses = b.capsPresses + 1 := if_pos ⟨hk, hp hk⟩
      rw [decide_eq_true hk, h.caps, Bool.bne_true, ← decide_not, decide_eq_decide, hn]
      omega
    · have hn : (b.after (.press k)).capsPresses = b.capsPresses := if_neg fun hh => hk hh.1
      rw [decide_eq_false hk, h.caps, Bool.bne_false, decide_eq_decide, hn]

theorem Shows.release (h : Shows b kbd) (hp : Plain b (.release k)) : Shows (b.after (.release k)) (kbd.up k) := by
  have hpart : ∀ {l r : Key}, l.partner = some r → k = l → b.held r = false := by
    intro l r hlr hk
    rw [← hk] at hlr
    exact hp r hlr
  constructor
  case ctrl =>
    exact (congrArg (· && _) h.ctrl).trans (release_pair (by decide) (hpart (by decide)) (hpart (by decide))).symm
  case shift =>
    exact (congrArg (· && _) h.shift).trans (release_pair (by decide) (hpart (by decide)) (hpart (by decide))).symm
  case alt =>
    exact (congrArg (· && _) h.alt).trans (release_pair (by decide) (hpart (by decide)) (hpart (by decide))).symm
  case caps => exact h.caps

/-! ## The buffer -/

/-- The bytes in `kbd_buf`, oldest first. -/
def Keyboard.chars (kbd : Keyboard) : List UInt8 := ringBytes kbd.kbdBuf

/-- What the handler puts into the buffer. -/
def queued (code : UInt8) (kbd : Keyboard) : List UInt8 :=
  if ioqLength kbd.kbdBuf + 1 = bufsize then [] else (typed code kbd).toList

theorem enqueue_ok {q : Ioqueue} (hok : (ringOf q).Ok bufsize) (c : UInt8) : (ringOf (enqueue c q)).Ok bufsize := by
  unfold enqueue
  split
  · exact hok
  · exact hok.push c

theorem ringBytes_enqueue {q : Ioqueue} (hok : (ringOf q).Ok bufsize) (c : UInt8) :
    ringBytes (enqueue c q) = ringBytes q ++ if ioqLength q + 1 = bufsize then [] else [c] := by
  have hfull : ioqLength q + 1 = bufsize ↔ nextPos q.head = q.tail := RingBuf.used_full hok
  have hlt : ioqLength q < bufsize := RingBuf.used_lt hok
  unfold enqueue
  by_cases h : nextPos q.head = q.tail
  · rw [if_pos h, if_pos (hfull.2 h), List.append_nil]
  · rw [if_neg h, if_neg (mt hfull.1 h)]
    have hroom : ioqLength q + 1 < bufsize := by
      have := mt hfull.1 h
      omega
    exact RingBuf.contents_push hok hroom c

theorem chars_down (hok : (ringOf kbd.kbdBuf).Ok bufsize) (k : Key) : (kbd.down k).chars =
    kbd.chars ++ queued (UInt8.ofNat k.code) kbd := by
  unfold Keyboard.chars queued Keyboard.down
  dsimp only
  cases typed (UInt8.ofNat k.code) kbd with
  | none => simp
  | some c => exact ringBytes_enqueue hok c

theorem down_ok (hok : (ringOf kbd.kbdBuf).Ok bufsize) (k : Key) : (ringOf (kbd.down k).kbdBuf).Ok bufsize := by
  unfold Keyboard.down
  dsimp only
  split
  · exact hok
  · exact enqueue_ok hok _

/-! ## Runs of the keyboard -/

/-- How far the handler has read the bytes of an event. -/
inductive Rest : Event → Bool → List UInt8 → Prop where
  | whole {e : Event} {codes : List UInt8} : codes = e.codes → Rest e false codes
  | press {k : Key} : k.ext = true → Rest (.press k) true [UInt8.ofNat k.code]
  | release {k : Key} : k.ext = true → Rest (.release k) true [UInt8.ofNat (k.code + 0x80)]

theorem Rest.ne_nil {ext : Bool} {codes : List UInt8} (h : Rest e ext codes) : codes ≠ [] := by
  cases h with
  | press _ => exact List.cons_ne_nil _ _
  | release _ => exact List.cons_ne_nil _ _
  | whole hc =>
    rw [hc]
    cases e with
    | press k =>
      change (if k.ext then _ else _) ≠ _
      split <;> exact List.cons_ne_nil _ _
    | release k =>
      change (if k.ext then _ else _) ≠ _
      split <;> exact List.cons_ne_nil _ _
    | pause => exact List.cons_ne_nil _ _

structure WorldOk (w : World) : Prop where
  shows : Shows w.board w.kbd
  ring : (ringOf w.kbd.kbdBuf).Ok bufsize
  coming : (w.coming = [] ∧ w.kbd.extScancode = false) ∨
    ∃ e, Plain w.board e ∧ w.next = w.board.after e ∧ Rest e w.kbd.extScancode w.coming

/-- The handler has read a byte: the state is that of the keys whose codes it has, and the
buffer has what the byte typed. -/
structure Served (w : World) (code : UInt8) (coming : List UInt8) (kbd : Keyboard) : Prop where
  run : intrKeyboardHandler code w.kbd = some kbd
  chars : kbd.chars = w.kbd.chars ++ queued code w.kbd
  ok : WorldOk { w with board := if coming = [] then w.next else w.board, coming := coming, kbd := kbd }

theorem typed_break (h : 0x80 ≤ c) (hc : c < 0x100) : typed (UInt8.ofNat c) kbd = none := by
  unfold typed
  rw [toNat_code hc, keymap_end (by omega)]
  split <;> rfl

theorem queued_none {code : UInt8} (h : typed code kbd = none) : queued code kbd = [] := by
  unfold queued
  rw [h]
  split <;> rfl

theorem WorldOk.served_press (h : WorldOk w) (hp : Plain w.board (.press k)) (hn : w.next = w.board.after (.press k))
    (hext : w.kbd.extScancode = k.ext) : Served w (UInt8.ofNat k.code) [] (w.kbd.down k) where
  run := handler_press k hext
  chars := chars_down h.ring k
  ok := {
    shows := by
      rw [if_pos rfl, hn]
      exact h.shows.press hp
    ring := down_ok h.ring k
    coming := .inl ⟨rfl, rfl⟩ }

theorem WorldOk.served_release (h : WorldOk w) (hp : Plain w.board (.release k))
    (hn : w.next = w.board.after (.release k)) (hext : w.kbd.extScancode = k.ext) :
    Served w (UInt8.ofNat (k.code + 0x80)) [] (w.kbd.up k) where
  run := handler_release k hext
  chars := by
    have hlt := k.lt
    rw [queued_none (typed_break (by omega) (by omega)), List.append_nil]
    rfl
  ok := {
    shows := by
      rw [if_pos rfl, hn]
      exact h.shows.release hp
    ring := h.ring
    coming := .inl ⟨rfl, rfl⟩ }

/-- The prefix byte. -/
theorem WorldOk.served_ext (h : WorldOk w) {coming : List UInt8} (hne : coming ≠ []) (hp : Plain w.board e)
    (hn : w.next = w.board.after e) (hr : Rest e true coming) :
    Served w 0xe0 coming { w.kbd with extScancode := true } where
  run := handler_ext w.kbd
  chars := by
    have ht : typed 0xe0 w.kbd = none := typed_break (c := 0xe0) (by decide) (by decide)
    rw [queued_none ht, List.append_nil]
    rfl
  ok := {
    shows := by
      rw [if_neg hne]
      exact ⟨h.shows.ctrl, h.shows.shift, h.shows.alt, h.shows.caps⟩
    ring := h.ring
    coming := .inr ⟨e, by rw [if_neg hne]; exact hp, by rw [if_neg hne]; exact hn, hr⟩ }

/-- Every interrupt. -/
theorem WorldOk.interrupt (h : WorldOk w) {code : UInt8} {coming : List UInt8} (hc : w.coming = code :: coming) :
    ∃ kbd, Served w code coming kbd := by
  rcases h.coming with ⟨hnil, -⟩ | ⟨e, hp, hn, hr⟩
  · rw [hnil] at hc
    cases hc
  · generalize hx : w.kbd.extScancode = ext at hr
    rw [hc] at hr
    cases hr with
    | press hk =>
      exact ⟨_, h.served_press hp hn (hx.trans hk.symm)⟩
    | release hk =>
      exact ⟨_, h.served_release hp hn (hx.trans hk.symm)⟩
    | whole hcodes =>
      cases e with
      | press k =>
        change code :: coming = if k.ext then _ else _ at hcodes
        cases hk : k.ext with
        | true =>
          rw [hk, if_pos rfl] at hcodes
          cases hcodes
          exact ⟨_, h.served_ext (List.cons_ne_nil _ _) hp hn (.press hk)⟩
        | false =>
          rw [hk, if_neg (by decide)] at hcodes
          cases hcodes
          exact ⟨_, h.served_press hp hn (hx.trans hk.symm)⟩
      | release k =>
        change code :: coming = if k.ext then _ else _ at hcodes
        cases hk : k.ext with
        | true =>
          rw [hk, if_pos rfl] at hcodes
          cases hcodes
          exact ⟨_, h.served_ext (List.cons_ne_nil _ _) hp hn (.release hk)⟩
        | false =>
          rw [hk, if_neg (by decide)] at hcodes
          cases hcodes
          exact ⟨_, h.served_release hp hn (hx.trans hk.symm)⟩
      | pause => exact hp.elim

theorem worldOk_boot : WorldOk boot :=
  ⟨⟨rfl, rfl, rfl, rfl⟩, ⟨by decide, by decide⟩, .inl ⟨rfl, rfl⟩⟩

theorem WorldOk.idle (h : WorldOk w) (hnil : w.coming = []) : w.kbd.extScancode = false := by
  rcases h.coming with ⟨-, hx⟩ | ⟨e, -, -, hr⟩
  · exact hx
  · exact absurd hnil hr.ne_nil

/-- What one step keeps. -/
theorem WorldOk.act (h : WorldOk w) {a : Act} (ha : PlainAct a w) :
    runs (fun _ => True) a.run (fun _ w' => WorldOk w') w := by
  cases a with
  | key e =>
    unfold Act.run
    rw [runs_read_bind]
    refine runs_guard_bind (fun _ => trivial) fun hnil => ?_
    rw [runs_change]
    refine ⟨h.shows, h.ring, .inr ⟨e, ha, rfl, ?_⟩⟩
    change Rest e w.kbd.extScancode e.codes
    rw [h.idle hnil]
    exact .whole rfl
  | interrupt =>
    unfold Act.run
    rw [runs_read_bind]
    cases hc : w.coming with
    | nil => trivial
    | cons code coming =>
      obtain ⟨kbd, hs⟩ := h.interrupt hc
      dsimp only
      rw [runs_read_bind, hs.run, get_some, runs_pure_bind, runs_change]
      exact hs.ok
  | getchar =>
    unfold Act.run
    rw [runs_read_bind, runs_read_bind]
    refine runs_guard_bind (fun _ => trivial) fun _ => ?_
    rw [runs_change]
    exact ⟨⟨h.shows.ctrl, h.shows.shift, h.shows.alt, h.shows.caps⟩, h.ring.pop, h.coming⟩

theorem worldOk_run (h : Steps Act.run PlainAct acts boot w) : WorldOk w :=
  h.invariant (fun _ _ _ _ hw ha hrun => runs_of_ok (hw.act ha) hrun) worldOk_boot

/-- In a run of plain events the variables show the keys at all times, and every interrupt
puts into the buffer what its byte types. -/
theorem keyboard_run (h : Steps Act.run PlainAct acts boot w) : Shows w.board w.kbd ∧
    ∀ code coming, w.coming = code :: coming →
      ∃ kbd, intrKeyboardHandler code w.kbd = some kbd ∧ kbd.chars = w.kbd.chars ++ queued code w.kbd := by
  have hok := worldOk_run h
  refine ⟨hok.shows, fun code coming hc => ?_⟩
  obtain ⟨kbd, hs⟩ := hok.interrupt hc
  exact ⟨kbd, hs.run, hs.chars⟩

/-- Left shift and the key A. -/
def keyA : Key := ⟨false, 0x1e, by decide, by decide⟩

theorem shift_steps : ∃ w, Steps Act.run PlainAct [.key (.press shiftL), .interrupt, .key (.press keyA)] boot w :=
  ⟨_, .cons (fun h => by cases h) rfl (.cons trivial rfl (.cons (fun h => by cases h) rfl (.nil _)))⟩

theorem keyboard_run_shift : ∃ w, Steps Act.run PlainAct [.key (.press shiftL), .interrupt, .key (.press keyA)] boot w ∧
    Shows w.board w.kbd ∧ ∀ code coming, w.coming = code :: coming →
      ∃ kbd, intrKeyboardHandler code w.kbd = some kbd ∧ kbd.chars = w.kbd.chars ++ queued code w.kbd := by
  obtain ⟨w, hw⟩ := shift_steps
  exact ⟨w, hw, keyboard_run hw⟩

/-! ## Events that are not plain -/

/-- The second make code of Caps Lock turns the variable over again. -/
theorem Shows.press_iff (h : Shows b kbd) : Shows (b.after (.press k)) (kbd.down k) ↔ Plain b (.press k) := by
  refine ⟨fun hs hk => ?_, h.press⟩
  by_contra hheld
  have hn : (b.after (.press k)).capsPresses = b.capsPresses := if_neg fun hh => hheld hh.2
  have hcaps := hs.caps
  change (kbd.capsLockStatus != decide (k = capsLock)) = _ at hcaps
  rw [decide_eq_true hk, h.caps, Bool.bne_true, ← decide_not, decide_eq_decide, hn] at hcaps
  omega

/-- Where a pair still agrees after a key of it went up, the other one was up. -/
theorem other_up {held : Key → Bool} {l r : Key} {v : Bool} (hne : l ≠ r)
    (h : (v && !decide (k = l ∨ k = r)) = (update held k false l || update held k false r)) :
    (k = l → held r = false) ∧ (k = r → held l = false) := by
  constructor
  · rintro rfl
    rw [decide_eq_true (.inl rfl), Bool.not_true, Bool.and_false, update_self, update_of_ne (Ne.symm hne), Bool.false_or] at h
    exact h.symm
  · rintro rfl
    rw [decide_eq_true (.inr rfl), Bool.not_true, Bool.and_false, update_self, update_of_ne hne, Bool.or_false] at h
    exact h.symm

/-- One boolean stands for two keys. -/
theorem Shows.release_iff (h : Shows b kbd) : Shows (b.after (.release k)) (kbd.up k) ↔ Plain b (.release k) := by
  refine ⟨fun hs k' hk' => ?_, h.release⟩
  have hctrl := other_up (by decide) hs.ctrl
  have hshift := other_up (by decide) hs.shift
  have halt := other_up (by decide) hs.alt
  unfold Key.partner at hk'
  split_ifs at hk' with h1 h2 h3 h4 h5 h6
  all_goals cases hk'
  · exact hctrl.1 h1
  · exact hctrl.2 h2
  · exact hshift.1 h3
  · exact hshift.2 h4
  · exact halt.1 h5
  · exact halt.2 h6

/-- Left and right shift are held, and the left one goes up. -/
theorem keyboard_pair : ¬ ∀ acts w, Steps Act.run (fun _ _ => True) acts boot w → Shows w.board w.kbd := by
  intro h
  have hs := h [.key (.press shiftL), .interrupt, .key (.press shiftR), .interrupt, .key (.release shiftL), .interrupt] _
    (.cons trivial rfl (.cons trivial rfl (.cons trivial rfl (.cons trivial rfl (.cons trivial rfl
      (.cons trivial rfl (.nil _)))))))
  have hshift := hs.shift
  revert hshift
  decide

end

end Enix.Device
