import Enix.Core.Command
import Enix.Lib.Itoa
import Mathlib.Data.List.TakeWhile

/-!
# The screen (`lib/print.S`)

The text page has 25 rows of 80 characters, each with an attribute; the cursor is in two
registers of the CRT controller. What is printed is printed on a roll of `Paper`: it has
as many rows as it takes, and the screen shows the last 25 of those that were reached.

* `putChar_paper`: a character goes to the paper, and a new row to the screen if need be.
* `putInt_numeral`: `put_int` prints the numeral of its argument.
* `printed_displays`: whatever is printed after `cls_screen`, the screen shows the paper, and
  the processor refuses exactly the backspace in its first place.
-/
set_option autoImplicit false

namespace Enix.Device
open Enix.Core Enix.Lib Function

/-- The segment of `gs`, and the registers of the CRT controller. -/
structure Screen where
  gs : Bytes
  index : UInt8
  crtc : UInt8 → UInt8

/-- A general protection fault. -/
inductive Gp where
  | limit
  deriving DecidableEq

abbrev Print := Cmd Screen Gp

/-- The limit of the segment: pages 0 to 7. mirrors src/boot/loader.s:15-16 (`VIDEO_DESC`) -/
def videoLimit : Nat := 0x7fff

/-- `out 0x3d4`, `out 0x3d5`, `in 0x3d5`. -/
def outIndex (i : UInt8) : Print Unit := Cmd.change fun s => { s with index := i }
def outData (x : UInt8) : Print Unit := Cmd.change fun s => { s with crtc := update s.crtc s.index x }
def inData : Print UInt8 := Cmd.read fun s => s.crtc s.index

/-- mirrors src/lib/print.S:48-66 -/
def getCursor : Print Nat := do
  outIndex 0x0e
  let ah ← inData
  outIndex 0x0f
  let al ← inData
  pure (ah.toNat * 256 + al.toNat)

/-- mirrors src/lib/print.S:139-155, 228-248 (`set_cursor`) -/
def setCursor (bx : Nat) : Print Unit := do
  outIndex 0x0e
  outData (UInt8.ofNat (bx / 256))
  outIndex 0x0f
  outData (UInt8.ofNat bx)

/-- `mov byte [gs:off], x` -/
def movByte (off : Nat) (x : UInt8) : Print Unit := do
  Cmd.guard (off ≤ videoLimit) .limit
  Cmd.change fun s => { s with gs := update s.gs off x }

/-- A row of blanks: `n` times `mov word [gs:ebx], 0x0720`.
mirrors src/lib/print.S:133-136, 263-266 -/
def cls : (ebx n : Nat) → Print Unit
  | _, 0 => pure ()
  | ebx, n + 1 => do
    Cmd.guard (ebx + 1 ≤ videoLimit) .limit
    Cmd.change fun s => { s with gs := update (update s.gs ebx 0x20) (ebx + 1) 0x07 }
    cls (ebx + 2) n

/-- `rep movsd`, within the text page: `esi` and `edi` count from its start. -/
def movsd : (esi edi n : Nat) → Print Unit
  | _, _, 0 => pure ()
  | esi, edi, n + 1 => do
    Cmd.change fun s => { s with gs := splice s.gs edi (shift s.gs esi) 4 }
    movsd (esi + 4) (edi + 4) n

/-- mirrors src/lib/print.S:123-137 -/
def rollScreen : Print Unit := do
  movsd 160 0 960
  cls 3840 80
  setCursor 1920

/-- `cmp bx, 2000` and `jl`, which takes both for signed. -/
def jl2000 (bx : Nat) : Bool := decide (bx < 2000 ∨ 32768 ≤ bx)

/-- mirrors src/lib/print.S:103-119 -/
def lineFeed (bx : Nat) : Print Unit := do
  let bx := bx - bx % 80
  let bx := (bx + 80) % 65536
  if jl2000 bx then setCursor bx else rollScreen

/-- mirrors src/lib/print.S:41-158 (`put_char`) -/
def putChar (c : UInt8) : Print Unit := do
  let bx ← getCursor
  if c = 0x0d then lineFeed bx
  else if c = 0x0a then lineFeed bx
  else if c = 0x08 then do
    let bx := (bx + 65535) % 65536
    let bx := bx * 2 % 65536
    movByte bx 0x20
    let bx := (bx + 1) % 65536
    movByte bx 0x07
    setCursor (bx / 2)
  else do
    let bx := bx * 2 % 65536
    movByte bx c
    let bx := (bx + 1) % 65536
    movByte bx 0x07
    let bx := bx / 2
    let bx := (bx + 1) % 65536
    if jl2000 bx then setCursor bx else lineFeed bx

/-- The bytes from the string on. mirrors src/lib/print.S:17-35 (`put_str`) -/
def putStr : List UInt8 → Print Unit
  | [] => pure ()
  | cl :: rest => if cl = 0 then pure () else do
    putChar cl
    putStr rest

/-- mirrors src/lib/print.S:175-193 -/
def hexDigits : (ecx eax : Nat) → (buf : Bytes) → Bytes
  | 0, _, buf => buf
  | ecx + 1, eax, buf =>
    let dl := eax % 16
    hexDigits ecx (eax / 16) (update buf ecx (if 9 < dl then UInt8.ofNat (dl - 10 + 0x41) else UInt8.ofNat (dl + 0x30)))

/-- mirrors src/lib/print.S:199-208 -/
def skipPrefix0 (buf : Bytes) : (n edi : Nat) → Nat
  | 0, edi => edi
  | n + 1, edi => if buf edi = 0x30 then skipPrefix0 buf n (edi + 1) else edi

/-- mirrors src/lib/print.S:213-220 -/
def putEachNum (buf : Bytes) : (n edi : Nat) → (cl : UInt8) → Print Unit
  | 0, _, _ => pure ()
  | n + 1, edi, cl => do
    putChar cl
    if edi + 1 < 8 then putEachNum buf n (edi + 1) (buf (edi + 1)) else pure ()

/-- mirrors src/lib/print.S:165-222 (`put_int`) -/
def putInt (eax : Nat) : Print Unit :=
  let buf := hexDigits 8 eax zeros
  let edi := skipPrefix0 buf 8 0
  putEachNum buf 8 edi (if edi = 8 then 0x30 else buf edi)

/-- mirrors src/lib/print.S:253-285 (`cls_screen`) -/
def clsScreen : Print Unit := do
  cls 0 2000
  setCursor 0

/-! ## Paper -/

/-- A roll of paper with rows of 80 places. The screen shows it from row `top` on. -/
structure Paper where
  text : Nat → UInt8
  pos : Nat
  top : Nat

namespace Paper

def blank : Paper := ⟨fun _ => 0x20, 0, 0⟩

/-- The cursor goes to `pos`, and the roll moves if that is below the screen. -/
def goTo (p : Paper) (pos : Nat) : Paper := { p with pos := pos, top := if 80 * (p.top + 25) ≤ pos then p.top + 1 else p.top }

/-- The first place of the screen has nothing before it that could be taken back. -/
def put (p : Paper) (c : UInt8) : Option Paper :=
  if c = 0x0d ∨ c = 0x0a then some (p.goTo ((p.pos / 80 + 1) * 80))
  else if c = 0x08 then
    if p.pos = 80 * p.top then none else some { p with text := update p.text (p.pos - 1) 0x20, pos := p.pos - 1 }
  else some ({ p with text := update p.text p.pos c }.goTo (p.pos + 1))

def write (p : Paper) : List UInt8 → Option Paper
  | [] => some p
  | c :: l => (p.put c).bind fun p' => p'.write l

end Paper

/-- The screen shows the paper. -/
structure Displays (s : Screen) (p : Paper) : Prop where
  char : ∀ i, i < 2000 → s.gs (2 * i) = p.text (80 * p.top + i)
  attr : ∀ i, i < 2000 → s.gs (2 * i + 1) = 0x07
  high : s.crtc 0x0e = UInt8.ofNat ((p.pos - 80 * p.top) / 256)
  low : s.crtc 0x0f = UInt8.ofNat (p.pos - 80 * p.top)
  within : 80 * p.top ≤ p.pos ∧ p.pos < 80 * (p.top + 25)
  blank : ∀ i, 80 * (p.top + 25) ≤ i → p.text i = 0x20

section
variable {s s' : Screen} {p p' : Paper} {c : UInt8} {l : List UInt8} {bx off n : Nat} {x : UInt8}

/-! ## Ports and memory -/

theorem getCursor_run (h : Displays s p) : ∃ s', getCursor s = .ok (p.pos - 80 * p.top, s') ∧ s'.gs = s.gs ∧
    s'.crtc = s.crtc := by
  have hw := h.within
  refine ⟨{ s with index := 0x0f }, ?_, rfl, rfl⟩
  have hhigh : (s.crtc 0x0e).toNat = (p.pos - 80 * p.top) / 256 := by
    rw [h.high, UInt8.toNat_ofNat']
    omega
  have hlow : (s.crtc 0x0f).toNat = (p.pos - 80 * p.top) % 256 := by rw [h.low, UInt8.toNat_ofNat']
  show Except.ok ((s.crtc 0x0e).toNat * 256 + (s.crtc 0x0f).toNat, _) = _
  rw [hhigh, hlow, Nat.div_add_mod']

theorem setCursor_run (bx : Nat) (s : Screen) : ∃ s', setCursor bx s = .ok ((), s') ∧ s'.gs = s.gs ∧
    s'.crtc 0x0e = UInt8.ofNat (bx / 256) ∧ s'.crtc 0x0f = UInt8.ofNat bx := by
  refine ⟨{ s with index := 0x0f, crtc := update (update s.crtc 0x0e (UInt8.ofNat (bx / 256))) 0x0f (UInt8.ofNat bx) },
    rfl, rfl, ?_, ?_⟩
  · show update (update s.crtc 0x0e (UInt8.ofNat (bx / 256))) 0x0f (UInt8.ofNat bx) 0x0e = _
    rw [update_of_ne (by decide), update_self]
  · show update (update s.crtc 0x0e (UInt8.ofNat (bx / 256))) 0x0f (UInt8.ofNat bx) 0x0f = _
    rw [update_self]

theorem movByte_run (h : off ≤ videoLimit) (x : UInt8) (s : Screen) :
    movByte off x s = .ok ((), { s with gs := update s.gs off x }) := by
  unfold movByte
  rw [bind_ok (guard_run h _ s)]
  rfl

/-- `n` blanks from place `i` on. -/
def blanked (gs : Bytes) (i n : Nat) : Bytes :=
  fun o => if 2 * i ≤ o ∧ o < 2 * (i + n) then (if o % 2 = 0 then 0x20 else 0x07) else gs o

theorem cls_run : ∀ (n i : Nat) (s : Screen), 2 * (i + n) ≤ videoLimit + 1 →
    cls (2 * i) n s = .ok ((), { s with gs := blanked s.gs i n }) := by
  intro n
  induction n with
  | zero =>
    intro i s _
    have hnone : blanked s.gs i 0 = s.gs := funext fun o => if_neg (by omega)
    rw [hnone]
    rfl
  | succ n ih =>
    intro i s hn
    unfold cls
    rw [bind_ok (guard_run (by omega) _ s), bind_ok (change_run _ s), show 2 * i + 2 = 2 * (i + 1) by omega, ih _ _ (by omega)]
    congr 3
    funext o
    show blanked (update (update s.gs (2 * i) 0x20) (2 * i + 1) 0x07) (i + 1) n o = blanked s.gs i (n + 1) o
    unfold blanked
    by_cases ho : 2 * (i + 1) ≤ o ∧ o < 2 * (i + 1 + n)
    · rw [if_pos ho, if_pos (show 2 * i ≤ o ∧ o < 2 * (i + (n + 1)) by omega)]
    · rw [if_neg ho]
      by_cases h0 : o = 2 * i
      · rw [h0, update_of_ne (by omega), update_self, if_pos (by omega), if_pos (by omega)]
      · by_cases h1 : o = 2 * i + 1
        · rw [h1, update_self, if_pos (by omega), if_neg (by omega)]
        · rw [update_of_ne h1, update_of_ne h0, if_neg (by omega)]

/-- The first `n` words have been moved up by a row. -/
def moved (gs : Bytes) (n : Nat) : Bytes := fun o => if o < 4 * n then gs (160 + o) else gs o

theorem movsd_run : ∀ (n k : Nat) (s : Screen) (gs : Bytes), s.gs = moved gs k →
    movsd (160 + 4 * k) (4 * k) n s = .ok ((), { s with gs := moved gs (k + n) }) := by
  intro n
  induction n with
  | zero =>
    intro k s gs h
    rw [Nat.add_zero, ← h]
    rfl
  | succ n ih =>
    intro k s gs h
    unfold movsd
    have hnext : splice s.gs (4 * k) (shift s.gs (160 + 4 * k)) 4 = moved gs (k + 1) := by
      funext o
      unfold moved splice shift
      by_cases ho : 4 * k ≤ o ∧ o < 4 * k + 4
      · -- what is read is behind everything that has been written
        rw [if_pos ho, if_pos (by omega), h]
        unfold moved
        rw [if_neg (by omega)]
        congr 1
        omega
      · rw [if_neg ho, h]
        unfold moved
        by_cases hlt : o < 4 * k
        · rw [if_pos hlt, if_pos (by omega)]
        · rw [if_neg hlt, if_neg (by omega)]
    rw [bind_ok (change_run _ s), show 160 + 4 * k + 4 = 160 + 4 * (k + 1) by omega, show 4 * k + 4 = 4 * (k + 1) by omega,
      ih (k + 1) _ gs hnext, show k + 1 + n = k + (n + 1) by omega]

theorem rollScreen_run (s : Screen) : ∃ s', rollScreen s = .ok ((), s') ∧ s'.gs = blanked (moved s.gs 960) 1920 80 ∧
    s'.crtc 0x0e = UInt8.ofNat (1920 / 256) ∧ s'.crtc 0x0f = UInt8.ofNat 1920 := by
  have hmove := movsd_run 960 0 s s.gs (funext fun o => (if_neg (by omega)).symm)
  obtain ⟨s', hset, hgs, hhigh, hlow⟩ := setCursor_run 1920 { s with gs := blanked (moved s.gs 960) 1920 80 }
  refine ⟨s', ?_, hgs, hhigh, hlow⟩
  unfold rollScreen
  rw [bind_ok hmove, bind_ok (cls_run 80 1920 _ (by unfold videoLimit; omega)), Nat.zero_add]
  exact hset

/-! ## Characters -/

/-- Where the cursor is after a stretch within the screen. -/
theorem Displays.moveTo {q : Paper} (h : Displays s p) (hgs : s'.gs = s.gs) (htop : q.top = p.top) (htext : q.text = p.text)
    (hpos : 80 * p.top ≤ q.pos ∧ q.pos < 80 * (p.top + 25)) (hhigh : s'.crtc 0x0e = UInt8.ofNat ((q.pos - 80 * p.top) / 256))
    (hlow : s'.crtc 0x0f = UInt8.ofNat (q.pos - 80 * p.top)) : Displays s' q where
  char i hi := by rw [hgs, htop, htext, h.char i hi]
  attr i hi := by rw [hgs, h.attr i hi]
  high := by rw [htop, hhigh]
  low := by rw [htop, hlow]
  within := by rwa [htop]
  blank i hi := by rw [htext, h.blank i (htop ▸ hi)]

/-- A place of the screen is written to. -/
theorem Displays.store {i : Nat} (h : Displays s p) (hi : i < 2000) (x : UInt8) :
    Displays { s with gs := update (update s.gs (2 * i) x) (2 * i + 1) 0x07 } { p with text := update p.text (80 * p.top + i) x } where
  char j hj := by
    show update (update s.gs (2 * i) x) (2 * i + 1) 0x07 (2 * j) = update p.text (80 * p.top + i) x (80 * p.top + j)
    by_cases hji : j = i
    · rw [hji, update_of_ne (by omega), update_self, update_self]
    · rw [update_of_ne (by omega), update_of_ne (by omega), update_of_ne (by omega), h.char j hj]
  attr j hj := by
    show update (update s.gs (2 * i) x) (2 * i + 1) 0x07 (2 * j + 1) = 0x07
    by_cases hji : j = i
    · rw [hji, update_self]
    · rw [update_of_ne (by omega), update_of_ne (by omega), h.attr j hj]
  high := h.high
  low := h.low
  within := h.within
  blank j hj := by
    have hlt : j ≠ 80 * p.top + i := by
      show j ≠ _
      have : 80 * (p.top + 25) ≤ j := hj
      omega
    show update p.text (80 * p.top + i) x j = 0x20
    rw [update_of_ne hlt, h.blank j hj]

/-- The row below the screen comes up. -/
theorem Displays.roll (h : Displays s p) (hgs : s'.gs = blanked (moved s.gs 960) 1920 80)
    (hhigh : s'.crtc 0x0e = UInt8.ofNat (1920 / 256)) (hlow : s'.crtc 0x0f = UInt8.ofNat 1920) :
    Displays s' { p with pos := 80 * (p.top + 25), top := p.top + 1 } where
  char i hi := by
    show s'.gs (2 * i) = p.text (80 * (p.top + 1) + i)
    rw [hgs]
    unfold blanked
    by_cases hlast : 1920 ≤ i
    · rw [if_pos (by omega), if_pos (by omega), h.blank _ (by omega)]
    · rw [if_neg (by omega)]
      unfold moved
      rw [if_pos (by omega), show 160 + 2 * i = 2 * (80 + i) by omega, h.char _ (by omega)]
      congr 1
      omega
  attr i hi := by
    rw [hgs]
    unfold blanked
    by_cases hlast : 1920 ≤ i
    · rw [if_pos (by omega), if_neg (by omega)]
    · rw [if_neg (by omega)]
      unfold moved
      rw [if_pos (by omega), show 160 + (2 * i + 1) = 2 * (80 + i) + 1 by omega, h.attr _ (by omega)]
  high := by
    rw [hhigh]
    congr 2
    show 1920 = 80 * (p.top + 25) - 80 * (p.top + 1)
    omega
  low := by
    rw [hlow]
    congr 1
    show 1920 = 80 * (p.top + 25) - 80 * (p.top + 1)
    omega
  within := by
    show 80 * (p.top + 1) ≤ 80 * (p.top + 25) ∧ 80 * (p.top + 25) < 80 * (p.top + 1 + 25)
    omega
  blank i hi := h.blank i (by
    have : 80 * (p.top + 1 + 25) ≤ i := hi
    omega)

/-- `bx` is where the paper goes to next: the first place of a row, or the one behind the last row. -/
theorem lineFeed_paper (h : Displays s p) (pos : Nat) (hrow : pos - 80 * p.top = bx) (hpos : 80 * p.top ≤ pos)
    (hbx : bx < 2000) : ∃ s', lineFeed bx s = .ok ((), s') ∧ Displays s' (p.goTo ((pos / 80 + 1) * 80)) := by
  have hdiv : (pos / 80 + 1) * 80 = 80 * p.top + (bx - bx % 80 + 80) := by omega
  unfold lineFeed
  rw [Nat.mod_eq_of_lt (by omega : bx - bx % 80 + 80 < 65536)]
  by_cases hlt : bx - bx % 80 + 80 < 2000
  · obtain ⟨s', hset, hgs, hhigh, hlow⟩ := setCursor_run (bx - bx % 80 + 80) s
    have hjl : jl2000 (bx - bx % 80 + 80) = true := decide_eq_true (.inl hlt)
    refine ⟨s', by rw [if_pos hjl]; exact hset, ?_⟩
    have htop : (p.goTo ((pos / 80 + 1) * 80)).top = p.top := if_neg (by omega)
    refine h.moveTo hgs htop rfl ⟨?_, ?_⟩ ?_ ?_
    · show 80 * p.top ≤ (pos / 80 + 1) * 80
      omega
    · show (pos / 80 + 1) * 80 < _
      omega
    · show _ = UInt8.ofNat (((pos / 80 + 1) * 80 - 80 * p.top) / 256)
      rw [hhigh, hdiv, Nat.add_sub_cancel_left]
    · show _ = UInt8.ofNat ((pos / 80 + 1) * 80 - 80 * p.top)
      rw [hlow, hdiv, Nat.add_sub_cancel_left]
  · obtain ⟨s', hroll, hgs, hhigh, hlow⟩ := rollScreen_run s
    have hjl : ¬ jl2000 (bx - bx % 80 + 80) = true := by
      unfold jl2000
      rw [decide_eq_true_iff]
      omega
    refine ⟨s', by rw [if_neg hjl]; exact hroll, ?_⟩
    have hgo : p.goTo ((pos / 80 + 1) * 80) = { p with pos := 80 * (p.top + 25), top := p.top + 1 } := by
      have hlast : (pos / 80 + 1) * 80 = 80 * (p.top + 25) := by omega
      unfold Paper.goTo
      rw [hlast, if_pos (Nat.le_refl _)]
    rw [hgo]
    exact h.roll hgs hhigh hlow

/-- Two bytes at the place of the cursor. -/
theorem store_run {i : Nat} (hi : i < 2000) (x : UInt8) {m : Print Unit} :
    (do movByte (i * 2 % 65536) x; movByte ((i * 2 % 65536 + 1) % 65536) 0x07; m) s =
      m { s with gs := update (update s.gs (2 * i) x) (2 * i + 1) 0x07 } := by
  rw [show i * 2 % 65536 = 2 * i by omega, show (2 * i + 1) % 65536 = 2 * i + 1 by omega,
    bind_ok (movByte_run (by unfold videoLimit; omega) x s), bind_ok (movByte_run (by unfold videoLimit; omega) 0x07 _)]

/-- One character. -/
theorem putChar_paper (h : Displays s p) (c : UInt8) : match p.put c with
    | some p' => ∃ s', putChar c s = .ok ((), s') ∧ Displays s' p'
    | none => putChar c s = .error .limit := by
  have hw := h.within
  obtain ⟨s₁, hcur, hgs₁, hregs⟩ := getCursor_run h
  have h₁ : Displays s₁ p := h.moveTo hgs₁ rfl rfl hw (by rw [hregs, h.high]) (by rw [hregs, h.low])
  have hlt : p.pos - 80 * p.top < 2000 := by omega
  unfold putChar
  rw [bind_ok hcur]
  by_cases hnl : c = 0x0d ∨ c = 0x0a
  · have hput : p.put c = some (p.goTo ((p.pos / 80 + 1) * 80)) := if_pos hnl
    obtain ⟨s', hrun, hs'⟩ := lineFeed_paper h₁ p.pos rfl hw.1 hlt
    rw [hput]
    refine ⟨s', ?_, hs'⟩
    by_cases hcr : c = 0x0d
    · rw [if_pos hcr, hrun]
    · rw [if_neg hcr, if_pos (hnl.resolve_left hcr), hrun]
  · rw [if_neg fun hc => hnl (.inl hc), if_neg fun hc => hnl (.inr hc)]
    by_cases hbs : c = 0x08
    · rw [if_pos hbs]
      by_cases h0 : p.pos = 80 * p.top
      · have hput : p.put c = none := by
          unfold Paper.put
          rw [if_neg hnl, if_pos hbs, if_pos h0]
        rw [hput]
        -- 0 - 1 is 0xffff, which doubled is 0xfffe
        simp only [h0, Nat.sub_self]
        unfold movByte
        rw [bind_error (bind_error (guard_stop (by unfold videoLimit; omega) _ s₁))]
      · have hput : p.put c = some { p with text := update p.text (p.pos - 1) 0x20, pos := p.pos - 1 } := by
          unfold Paper.put
          rw [if_neg hnl, if_pos hbs, if_neg h0]
        have hi : (p.pos - 80 * p.top + 65535) % 65536 = p.pos - 1 - 80 * p.top := by omega
        have hst := h₁.store (i := p.pos - 1 - 80 * p.top) (by omega) 0x20
        rw [show 80 * p.top + (p.pos - 1 - 80 * p.top) = p.pos - 1 by omega] at hst
        obtain ⟨s', hset, hgs, hhigh, hlow⟩ := setCursor_run (p.pos - 1 - 80 * p.top)
          { s₁ with gs := update (update s₁.gs (2 * (p.pos - 1 - 80 * p.top)) 0x20) (2 * (p.pos - 1 - 80 * p.top) + 1) 0x07 }
        rw [hput]
        refine ⟨s', ?_, hst.moveTo hgs rfl rfl ⟨?_, ?_⟩ hhigh hlow⟩
        · simp only [hi]
          rw [store_run (by omega) 0x20, show ((p.pos - 1 - 80 * p.top) * 2 % 65536 + 1) % 65536 / 2 =
            p.pos - 1 - 80 * p.top by omega]
          exact hset
        · show 80 * p.top ≤ p.pos - 1
          omega
        · show p.pos - 1 < 80 * (p.top + 25)
          omega
    · have hput : p.put c = some ({ p with text := update p.text p.pos c }.goTo (p.pos + 1)) := by
        unfold Paper.put
        rw [if_neg hnl, if_neg hbs]
      have hst := h₁.store hlt c
      rw [show 80 * p.top + (p.pos - 80 * p.top) = p.pos by omega] at hst
      rw [if_neg hbs, hput]
      simp only
      rw [store_run hlt c, show ((p.pos - 80 * p.top) * 2 % 65536 + 1) % 65536 / 2 = p.pos - 80 * p.top by omega,
        Nat.mod_eq_of_lt (by omega : p.pos - 80 * p.top + 1 < 65536)]
      generalize hs₂ : ({ s₁ with gs := update (update s₁.gs (2 * (p.pos - 80 * p.top)) c) (2 * (p.pos - 80 * p.top) + 1) 0x07 } :
        Screen) = s₂ at hst ⊢
      by_cases hnext : p.pos - 80 * p.top + 1 < 2000
      · have hjl : jl2000 (p.pos - 80 * p.top + 1) = true := decide_eq_true (.inl hnext)
        obtain ⟨s', hset, hgs, hhigh, hlow⟩ := setCursor_run (p.pos - 80 * p.top + 1) s₂
        have htop : (({ p with text := update p.text p.pos c } : Paper).goTo (p.pos + 1)).top = p.top :=
          if_neg (by show ¬ 80 * (p.top + 25) ≤ p.pos + 1; omega)
        have hback : p.pos + 1 - 80 * p.top = p.pos - 80 * p.top + 1 := by omega
        refine ⟨s', by rw [if_pos hjl]; exact hset, hst.moveTo hgs htop rfl ⟨?_, ?_⟩ ?_ ?_⟩
        · show 80 * p.top ≤ p.pos + 1
          omega
        · show p.pos + 1 < 80 * (p.top + 25)
          omega
        · show _ = UInt8.ofNat ((p.pos + 1 - 80 * p.top) / 256)
          rw [hback, hhigh]
        · show _ = UInt8.ofNat (p.pos + 1 - 80 * p.top)
          rw [hback, hlow]
      · -- behind the last place of the screen: 2000 is the first place of a row already
        have hjl : ¬ jl2000 (p.pos - 80 * p.top + 1) = true := by
          unfold jl2000
          rw [decide_eq_true_iff]
          omega
        obtain ⟨s', hroll, hgs, hhigh, hlow⟩ := rollScreen_run s₂
        have h2000 : p.pos - 80 * p.top + 1 = 2000 := by omega
        have hgo : ({ p with text := update p.text p.pos c } : Paper).goTo (p.pos + 1) =
            { p with text := update p.text p.pos c, pos := 80 * (p.top + 25), top := p.top + 1 } := by
          have hpos : p.pos + 1 = 80 * (p.top + 25) := by omega
          unfold Paper.goTo
          rw [hpos, if_pos (Nat.le_refl _)]
        refine ⟨s', ?_, by rw [hgo]; exact hst.roll hgs hhigh hlow⟩
        rw [if_neg hjl, h2000]
        exact hroll

theorem clsScreen_run (s : Screen) : ∃ s', clsScreen s = .ok ((), s') ∧ Displays s' .blank := by
  have hcls := cls_run 2000 0 s (by unfold videoLimit; omega)
  obtain ⟨s', hset, hgs, hhigh, hlow⟩ := setCursor_run 0 { s with gs := blanked s.gs 0 2000 }
  refine ⟨s', ?_, fun i hi => ?_, fun i hi => ?_, hhigh, hlow, ⟨Nat.le_refl 0, by decide⟩, fun _ _ => rfl⟩
  · unfold clsScreen
    rw [bind_ok hcls]
    exact hset
  · rw [hgs]
    show blanked s.gs 0 2000 (2 * i) = 0x20
    unfold blanked
    rw [if_pos (by omega), if_pos (by omega)]
  · rw [hgs]
    show blanked s.gs 0 2000 (2 * i + 1) = 0x07
    unfold blanked
    rw [if_pos (by omega), if_neg (by omega)]

/-! ## Strings and numbers -/

/-- One character behind the other. -/
def putChars : List UInt8 → Print Unit
  | [] => pure ()
  | c :: l => do
    putChar c
    putChars l

theorem putChars_paper : ∀ (l : List UInt8) {s : Screen} {p : Paper}, Displays s p → match p.write l with
    | some p' => ∃ s', putChars l s = .ok ((), s') ∧ Displays s' p'
    | none => putChars l s = .error .limit := by
  intro l
  induction l with
  | nil => exact fun h => ⟨_, rfl, h⟩
  | cons c l ih =>
    intro s p h
    have hstep := putChar_paper h c
    unfold putChars Paper.write
    cases hput : p.put c with
    | none =>
      rw [hput] at hstep
      exact bind_error hstep
    | some p₁ =>
      rw [hput] at hstep
      obtain ⟨s₁, hrun, h₁⟩ := hstep
      rw [Option.bind_some, bind_ok hrun]
      exact ih h₁

theorem putStr_eq (l : List UInt8) : putStr l = putChars (l.takeWhile (· ≠ 0)) := by
  induction l with
  | nil => rfl
  | cons c l ih =>
    unfold putStr
    by_cases hc : c = 0
    · rw [if_pos hc, List.takeWhile_cons_of_neg (by simpa using hc)]
      rfl
    · rw [if_neg hc, List.takeWhile_cons_of_pos (by simpa using hc), ih]
      rfl

/-- Digit `i` of `n`, from the front. -/
theorem hexDigits_eq : ∀ (n eax : Nat) (buf : Bytes) (i : Nat), hexDigits n eax buf i =
    if i < n then digitChars.getD (eax / 16 ^ (n - 1 - i) % 16) 0 else buf i := by
  intro n
  induction n with
  | zero => exact fun eax buf i => (if_neg (Nat.not_lt_zero i)).symm
  | succ n ih =>
    intro eax buf i
    unfold hexDigits
    rw [ih]
    by_cases hi : i < n
    · rw [if_pos hi, if_pos (by omega), Nat.div_div_eq_div_mul, ← Nat.pow_succ', show (n - 1 - i).succ = n + 1 - 1 - i by omega]
    · rw [if_neg hi]
      by_cases hin : i = n
      · rw [hin, update_self, if_pos (Nat.lt_succ_self n), Nat.add_sub_cancel, Nat.sub_self, Nat.pow_zero, Nat.div_one,
          digitChars_eq _ (Nat.mod_lt _ (by decide))]
        by_cases h9 : 9 < eax % 16
        · rw [if_pos h9, if_neg (by omega)]
        · rw [if_neg h9, if_pos (by omega)]
      · rw [update_of_ne hin, if_neg (by omega)]

/-- `n` digits, zeros in front. -/
def padded (n value : Nat) : List UInt8 := (List.range n).map fun i => digitChars.getD (value / 16 ^ (n - 1 - i) % 16) 0

theorem padded_succ (n value : Nat) : padded (n + 1) value = padded n (value / 16) ++ [digitChars.getD (value % 16) 0] := by
  unfold padded
  rw [List.range_succ, List.map_append, List.map_singleton, Nat.add_sub_cancel, Nat.sub_self, Nat.pow_zero, Nat.div_one]
  congr 1
  refine List.map_congr_left fun i hi => ?_
  have hlt := List.mem_range.1 hi
  rw [Nat.div_div_eq_div_mul, ← Nat.pow_succ', show (n - 1 - i).succ = n - i by omega]

theorem numeral_step16 (value : Nat) : numeral 16 value =
    (if value / 16 = 0 then [] else numeral 16 (value / 16)) ++ [digitChars.getD (value % 16) 0] := numeral_step (by decide) value

/-- By induction on the digits: zeros, and the numeral behind them. -/
theorem padded_numeral : ∀ (n value : Nat), value < 16 ^ (n + 1) →
    padded (n + 1) value = List.replicate (n + 1 - (numeral 16 value).length) 0x30 ++ numeral 16 value := by
  intro n
  induction n with
  | zero =>
    intro value hlt
    have hnum := numeral_step16 value
    rw [if_pos (by omega)] at hnum
    rw [hnum, padded_succ]
    rfl
  | succ n ih =>
    intro value hlt
    have hrest : value / 16 < 16 ^ (n + 1) := Nat.div_lt_of_lt_mul (by rwa [Nat.pow_succ, Nat.mul_comm] at hlt)
    rw [padded_succ, ih _ hrest, numeral_step16 value]
    by_cases h0 : value / 16 = 0
    · have hzero : numeral 16 0 = [0x30] := rfl
      have hlen : n + 1 + 1 - ([] ++ [digitChars.getD (value % 16) 0]).length = n + 1 := by
        rw [List.nil_append, List.length_singleton]
        omega
      rw [if_pos h0, h0, hzero, hlen, List.length_singleton, Nat.add_sub_cancel, List.replicate_succ', List.nil_append]
    · rw [if_neg h0, List.length_append, List.length_singleton, Nat.add_sub_add_right, List.append_assoc]

theorem skipPrefix0_replicate (buf : Bytes) : ∀ (k n edi : Nat), k ≤ n → (∀ i, i < k → buf (edi + i) = 0x30) →
    (k < n → buf (edi + k) ≠ 0x30) → skipPrefix0 buf n edi = edi + k := by
  intro k
  induction k with
  | zero =>
    intro n edi _ _ hne
    cases n with
    | zero => rfl
    | succ n => exact if_neg (hne (Nat.succ_pos n))
  | succ k ih =>
    intro n edi hkn h0 hne
    cases n with
    | zero => exact absurd hkn (Nat.not_succ_le_zero k)
    | succ n =>
      have hfirst : buf edi = 0x30 := h0 0 (Nat.succ_pos k)
      unfold skipPrefix0
      rw [if_pos hfirst, ih n (edi + 1) (Nat.le_of_succ_le_succ hkn)
        (fun i hi => by rw [show edi + 1 + i = edi + (i + 1) by omega]; exact h0 (i + 1) (by omega))
        (fun hlt => by rw [show edi + 1 + k = edi + (k + 1) by omega]; exact hne (by omega))]
      omega

/-- What the loop of `put_int` prints. -/
def eachNum (buf : Bytes) : (n edi : Nat) → (cl : UInt8) → List UInt8
  | 0, _, _ => []
  | n + 1, edi, cl => cl :: if edi + 1 < 8 then eachNum buf n (edi + 1) (buf (edi + 1)) else []

theorem putEachNum_eq (buf : Bytes) (n edi : Nat) (cl : UInt8) : putEachNum buf n edi cl = putChars (eachNum buf n edi cl) := by
  induction n generalizing edi cl with
  | zero => rfl
  | succ n ih =>
    unfold putEachNum eachNum
    by_cases hedi : edi + 1 < 8
    · rw [if_pos hedi, if_pos hedi, ih]
      rfl
    · rw [if_neg hedi, if_neg hedi]
      rfl

/-- The digits from `edi` on. -/
theorem eachNum_cons (buf : Bytes) : ∀ (l : List UInt8) (n edi : Nat) (cl : UInt8), l.length < n → edi + l.length = 7 →
    (∀ i, i < l.length → l.getD i 0 = buf (edi + 1 + i)) → eachNum buf n edi cl = cl :: l := by
  intro l
  induction l with
  | nil =>
    intro n edi cl hn hedi _
    cases n with
    | zero => exact absurd hn (Nat.lt_irrefl 0)
    | succ n =>
      have hlast : ¬ edi + 1 < 8 := by
        rw [List.length_nil] at hedi
        omega
      unfold eachNum
      rw [if_neg hlast]
  | cons c l ih =>
    intro n edi cl hn hedi hbuf
    rw [List.length_cons] at hn hedi hbuf
    cases n with
    | zero => exact absurd hn (Nat.not_lt_zero _)
    | succ n =>
      have hc : buf (edi + 1) = c := (hbuf 0 (Nat.succ_pos _)).symm
      unfold eachNum
      rw [if_pos (by omega), hc, ih n (edi + 1) c (by omega) (by omega) fun i hi => ?_]
      rw [show edi + 1 + 1 + i = edi + 1 + (i + 1) by omega, ← hbuf (i + 1) (by omega)]
      rfl

/-- The digits that `put_int` prints are the numeral of its argument in base 16. -/
theorem eachNum_numeral (value : BitVec 32) :
    eachNum (hexDigits 8 value.toNat zeros) 8 (skipPrefix0 (hexDigits 8 value.toNat zeros) 8 0)
      (if skipPrefix0 (hexDigits 8 value.toNat zeros) 8 0 = 8 then 0x30
        else hexDigits 8 value.toNat zeros (skipPrefix0 (hexDigits 8 value.toNat zeros) 8 0)) = numeral 16 value.toNat := by
  generalize hv : value.toNat = v
  have hlt : v < 16 ^ (7 + 1) := hv ▸ value.isLt
  have hlen : (numeral 16 v).length ≤ 8 := length_numeral_le (by decide) (by decide) hlt
  have hpad := padded_numeral 7 v hlt
  have hget : ∀ i, i < 8 → hexDigits 8 v zeros i = (padded 8 v).getD i 0 := fun i hi => by
    rw [hexDigits_eq, if_pos hi]
    have hat : (padded 8 v)[i]? = some (digitChars.getD (v / 16 ^ (8 - 1 - i) % 16) 0) := by
      unfold padded
      rw [List.getElem?_map, List.getElem?_range hi]
      rfl
    rw [List.getD_eq_getElem?_getD (l := padded 8 v), hat, Option.getD_some]
  have hlead : (numeral 16 v).head? = some 0x30 → numeral 16 v = [0x30] := numeral_lead (by decide) (by decide) v
  have hzero : v = 0 ∨ numeral 16 v ≠ [0x30] := by
    by_cases h0 : v = 0
    · exact .inl h0
    · have hzero : numeral 16 0 = [0x30] := rfl
      exact .inr fun hc => h0 (numeral_inj (by decide) (by decide) (hc.trans hzero.symm))
  generalize hexDigits 8 v zeros = buf at hget
  rcases hzero with h0 | hne
  · -- all digits are zeros
    have hskip : skipPrefix0 buf 8 0 = 0 + 8 := by
      refine skipPrefix0_replicate buf 8 8 0 (Nat.le_refl 8) (fun i hi => ?_) fun hc => absurd hc (Nat.lt_irrefl 8)
      rw [Nat.zero_add, hget i hi, h0]
      revert i
      decide
    rw [hskip, h0, if_pos rfl]
    rfl
  · cases hdig : numeral 16 v with
    | nil => exact absurd hdig (numeral_ne_nil (by decide) v)
    | cons d l =>
      rw [hdig] at hlen hpad hlead hne
      rw [List.length_cons] at hlen hpad
      have hd : d ≠ 0x30 := fun hc => hne (hlead (by rw [hc]; rfl))
      have hk : 7 + 1 - (l.length + 1) = 7 - l.length := by omega
      rw [hk] at hpad
      have hin : ∀ i, i < l.length + 1 → buf (7 - l.length + i) = (d :: l).getD i 0 := fun i hi => by
        rw [hget _ (by omega), hpad, List.getD_append_right _ _ _ _ (by rw [List.length_replicate]; omega),
          List.length_replicate, Nat.add_sub_cancel_left]
      have hskip : skipPrefix0 buf 8 0 = 0 + (7 - l.length) := by
        refine skipPrefix0_replicate buf _ 8 0 (by omega) (fun i hi => ?_) fun _ => ?_
        · rw [Nat.zero_add, hget i (by omega), hpad, List.getD_append _ _ _ _ (by rwa [List.length_replicate]),
            List.getD_eq_getElem _ _ (by rwa [List.length_replicate]), List.getElem_replicate]
        · rw [Nat.zero_add, ← Nat.add_zero (7 - l.length), hin 0 (Nat.succ_pos _)]
          exact hd
      have hfirst : buf (7 - l.length) = d := hin 0 (Nat.succ_pos _)
      rw [hskip, Nat.zero_add, if_neg (by omega), hfirst]
      refine eachNum_cons buf l 8 _ d (by omega) (by omega) fun i hi => ?_
      rw [show 7 - l.length + 1 + i = 7 - l.length + (i + 1) by omega, hin (i + 1) (by omega)]
      rfl

theorem putInt_numeral (value : BitVec 32) : putInt value.toNat = putChars (numeral 16 value.toNat) := by
  unfold putInt
  simp only [putEachNum_eq]
  rw [eachNum_numeral]

end

/-! ## Runs -/

/-- What the kernel prints. -/
inductive PrintCall where
  | char (c : UInt8)
  | str (bytes : List UInt8)
  | int (value : BitVec 32)

namespace PrintCall

def cmd : PrintCall → Print Unit
  | char c => putChar c
  | str l => putStr l
  | int v => putInt v.toNat

def text : PrintCall → List UInt8
  | char c => [c]
  | str l => l.takeWhile (· ≠ 0)
  | int v => numeral 16 v.toNat

end PrintCall

/-- One call behind the other. -/
def printAll : List PrintCall → Print Unit
  | [] => pure ()
  | call :: calls => do
    call.cmd
    printAll calls

section
variable {s : Screen} {p p' : Paper} {l : List UInt8}

theorem Paper.write_append (p : Paper) (l l' : List UInt8) : p.write (l ++ l') = (p.write l).bind (·.write l') := by
  induction l generalizing p with
  | nil => rfl
  | cons c l ih =>
    show (p.put c).bind (·.write (l ++ l')) = ((p.put c).bind (·.write l)).bind (·.write l')
    cases p.put c with
    | none => rfl
    | some p₁ => exact ih p₁

theorem cmd_text (call : PrintCall) : call.cmd = putChars call.text := by
  cases call with
  | char c => exact (bind_pure_unit (x := putChar c)).symm
  | str l => exact putStr_eq l
  | int v => exact putInt_numeral v

theorem cmd_paper (h : Displays s p) (call : PrintCall) : match p.write call.text with
    | some p' => ∃ s', call.cmd s = .ok ((), s') ∧ Displays s' p'
    | none => call.cmd s = .error .limit := by
  rw [cmd_text]
  exact putChars_paper call.text h

theorem printAll_paper (calls : List PrintCall) (h : Displays s p) : match p.write (calls.flatMap (·.text)) with
    | some p' => ∃ s', printAll calls s = .ok ((), s') ∧ Displays s' p'
    | none => printAll calls s = .error .limit := by
  induction calls generalizing s p with
  | nil => exact ⟨s, rfl, h⟩
  | cons call calls ih =>
    have hstep := cmd_paper h call
    rw [List.flatMap_cons, Paper.write_append]
    unfold printAll
    cases hput : p.write call.text with
    | none =>
      rw [hput] at hstep
      exact bind_error hstep
    | some p₁ =>
      rw [hput] at hstep
      obtain ⟨s₁, hrun, h₁⟩ := hstep
      rw [Option.bind_some, bind_ok hrun]
      exact ih h₁

/-- While nothing is taken back, the cursor is in the last row once 25 have been reached. -/
theorem Paper.write_top (hl : 0x08 ∉ l) (hp : p.top = p.pos / 80 - 24) : ∃ p', p.write l = some p' ∧ p'.top = p'.pos / 80 - 24 := by
  induction l generalizing p with
  | nil => exact ⟨p, rfl, hp⟩
  | cons c l ih =>
    have hstep : ∃ p₁, p.put c = some p₁ ∧ p₁.top = p₁.pos / 80 - 24 := by
      unfold Paper.put
      by_cases hnl : c = 0x0d ∨ c = 0x0a
      · refine ⟨_, if_pos hnl, ?_⟩
        rw [Nat.mul_comm]
        show (if 80 * (p.top + 25) ≤ 80 * (p.pos / 80 + 1) then p.top + 1 else p.top) = 80 * (p.pos / 80 + 1) / 80 - 24
        split
        · omega
        · omega
      · have hbs : c ≠ 0x08 := by
          rintro rfl
          exact hl List.mem_cons_self
        rw [if_neg hnl, if_neg hbs]
        refine ⟨_, rfl, ?_⟩
        show (if 80 * (p.top + 25) ≤ p.pos + 1 then p.top + 1 else p.top) = (p.pos + 1) / 80 - 24
        split
        · omega
        · omega
    obtain ⟨p₁, hput, h₁⟩ := hstep
    obtain ⟨p', hw, h'⟩ := ih (fun hc => hl (List.mem_cons_of_mem _ hc)) h₁
    refine ⟨p', ?_, h'⟩
    unfold Paper.write
    rw [hput, Option.bind_some, hw]

/-- Whatever is printed on a clear screen is written on paper; the processor refuses a
backspace in the first place of the screen, and nothing else. -/
theorem printed_displays (s : Screen) (calls : List PrintCall) :
    (match Paper.blank.write (calls.flatMap (·.text)) with
      | some p => ∃ s', (do clsScreen; printAll calls) s = .ok ((), s') ∧ Displays s' p
      | none => (do clsScreen; printAll calls) s = .error .limit) ∧
    (0x08 ∉ calls.flatMap (·.text) →
      ∃ p, Paper.blank.write (calls.flatMap (·.text)) = some p ∧ p.top = p.pos / 80 - 24) := by
  obtain ⟨s₀, hcls, h₀⟩ := clsScreen_run s
  refine ⟨?_, fun hl => Paper.write_top hl rfl⟩
  rw [bind_ok hcls]
  exact printAll_paper calls h₀

end

end Enix.Device
