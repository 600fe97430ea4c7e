import Mathlib.Data.List.Basic
import Mathlib.Logic.Function.Basic

/-!
# Straight-line code on a stack

The instructions that save and restore registers, on a 32-bit processor whose memory is
made of words. `Stack c top ws` says what the words from `esp` up to `top` are; every
instruction has a rule that says what becomes of them.

* `Words.congr`, `Words.get`, `Words.set`: words in a row.
* `Stack.push`, `Stack.pop`, `Stack.peek`, `Stack.poke`: words of the stack.
* `Stack.pushad`, `stack_popad`: all registers at once.
-/
set_option autoImplicit false

namespace Enix.Core.Asm
open Function

abbrev Word := BitVec 32

/-- The general registers but for `esp`. -/
inductive Gpr where
  | eax | ecx | edx | ebx | ebp | esi | edi
  deriving DecidableEq

inductive Seg where
  | ds | es | fs | gs
  deriving DecidableEq

def gprs (eax ecx edx ebx ebp esi edi : Word) : Gpr → Word
  | .eax => eax
  | .ecx => ecx
  | .edx => edx
  | .ebx => ebx
  | .ebp => ebp
  | .esi => esi
  | .edi => edi

def segs (ds es fs gs : Word) : Seg → Word
  | .ds => ds
  | .es => es
  | .fs => fs
  | .gs => gs

/-- What a processor holds of the code that it runs. -/
structure Context where
  gpr : Gpr → Word
  seg : Seg → Word
  eip : Word
  cs : Word
  eflags : Word
  esp : Word
  ss : Word

/-- `mem` is the word at an address, `cr2` the address of the last page fault. -/
structure Cpu extends Context where
  mem : Word → Word
  cr2 : Word

namespace Cpu

def push (c : Cpu) (v : Word) : Cpu := { c with esp := c.esp - 4, mem := update c.mem (c.esp - 4) v }

def top (c : Cpu) : Word := c.mem c.esp

def addEsp (c : Cpu) (n : Word) : Cpu := { c with esp := c.esp + n }

def set (c : Cpu) (r : Gpr) (v : Word) : Cpu := { c with gpr := update c.gpr r v }

def setSeg (c : Cpu) (r : Seg) (v : Word) : Cpu := { c with seg := update c.seg r v }

def pop (c : Cpu) (r : Gpr) : Cpu := (c.set r c.top).addEsp 4

def store (c : Cpu) (a v : Word) : Cpu := { c with mem := update c.mem a v }

/-- `pushad` pushes the `esp` that it finds. -/
def pushad (c : Cpu) : Cpu :=
  (((((((c.push (c.gpr .eax)).push (c.gpr .ecx)).push (c.gpr .edx)).push (c.gpr .ebx)).push c.esp).push (c.gpr .ebp)).push
    (c.gpr .esi)).push (c.gpr .edi)

/-- `popad` ignores it. -/
def popad (c : Cpu) : Cpu :=
  (((((((c.pop .edi).pop .esi).pop .ebp).addEsp 4).pop .ebx).pop .edx).pop .ecx).pop .eax

end Cpu

inductive Instr where
  | push (r : Gpr)
  | pushImm (v : Word)
  | pushSeg (r : Seg)
  | pushad
  | pop (r : Gpr)
  | popSeg (r : Seg)
  | popad
  | addEsp (n : Word)
  /-- `mov r, [esp + n]` -/
  | load (r : Gpr) (n : Word)
  /-- `mov [esp + n], r` -/
  | store (n : Word) (r : Gpr)
  /-- `xchg r, [esp + n]` -/
  | xchg (r : Gpr) (n : Word)
  /-- `mov [r], esp` -/
  | saveEsp (r : Gpr)
  /-- `mov esp, [r]` -/
  | loadEsp (r : Gpr)
  /-- `mov al, v` -/
  | movAl (v : Word)
  /-- `mov r, cr2` -/
  | movCr2 (r : Gpr)
  | ret
  | iretd

/-- The privilege that a selector asks for. -/
def rpl (selector : Word) : Word := selector &&& 3

namespace Instr

/-- `iretd` takes `esp` and `ss` from the stack as well when it goes back to a lower privilege. -/
def exec : Instr → Cpu → Cpu
  | push r, c => c.push (c.gpr r)
  | pushImm v, c => c.push v
  | pushSeg r, c => c.push (c.seg r)
  | pushad, c => c.pushad
  | pop r, c => c.pop r
  | popSeg r, c => (c.setSeg r c.top).addEsp 4
  | popad, c => c.popad
  | addEsp n, c => c.addEsp n
  | load r n, c => c.set r (c.mem (c.esp + n))
  | store n r, c => c.store (c.esp + n) (c.gpr r)
  | xchg r n, c => (c.store (c.esp + n) (c.gpr r)).set r (c.mem (c.esp + n))
  | saveEsp r, c => c.store (c.gpr r) c.esp
  | loadEsp r, c => { c with esp := c.mem (c.gpr r) }
  | movAl v, c => c.set .eax (c.gpr .eax &&& 0xffffff00 ||| v)
  | movCr2 r, c => c.set r c.cr2
  | ret, c => { c.addEsp 4 with eip := c.top }
  | iretd, c =>
    let c' := { c.addEsp 12 with eip := c.top, cs := c.mem (c.esp + 4), eflags := c.mem (c.esp + 8) }
    if rpl c'.cs = rpl c.cs then c' else { c' with esp := c'.mem c'.esp, ss := c'.mem (c'.esp + 4) }

end Instr

def run : List Instr → Cpu → Cpu
  | [], c => c
  | i :: is, c => run is (i.exec c)

/-! ## Words in a row -/

/-- The words from `a` on. -/
def Words (m : Word → Word) : Word → List Word → Prop
  | _, [] => True
  | a, w :: ws => m a = w ∧ Words m (a + 4) ws

section
variable {m m' : Word → Word} {a : Word} {w v : Word} {ws : List Word} {k : Nat}

theorem toNat_add_four (h : a.toNat + 4 < 4294967296) : (a + 4).toNat = a.toNat + 4 := by
  rw [BitVec.toNat_add]
  exact Nat.mod_eq_of_lt h

/-- Only the words themselves matter. -/
theorem Words.congr : ∀ {a : Word} {ws : List Word}, Words m a ws → a.toNat + 4 * ws.length < 4294967296 →
    (∀ b : Word, a.toNat ≤ b.toNat → b.toNat < a.toNat + 4 * ws.length → m' b = m b) → Words m' a ws
  | _, [], _, _, _ => trivial
  | a, w :: ws, ⟨hw, hws⟩, hlt, hm => by
    rw [List.length_cons] at hlt hm
    have hnext := toNat_add_four (a := a) (by omega)
    refine ⟨(hm a (Nat.le_refl _) (by omega)).trans hw, hws.congr (by omega) fun b h1 h2 => hm b (by omega) (by omega)⟩

theorem Words.append : ∀ {a : Word} {ws vs : List Word}, Words m a (ws ++ vs) ↔
    Words m a ws ∧ Words m (a + BitVec.ofNat 32 (4 * ws.length)) vs
  | a, [], vs => by simp [Words]
  | a, w :: ws, vs => by
    have hoff : a + 4 + BitVec.ofNat 32 (4 * ws.length) = a + BitVec.ofNat 32 (4 * (w :: ws).length) := by
      rw [List.length_cons, Nat.mul_succ, Nat.add_comm, BitVec.ofNat_add, BitVec.add_assoc]
      rfl
    rw [List.cons_append]
    show m a = w ∧ Words m (a + 4) (ws ++ vs) ↔ (m a = w ∧ Words m (a + 4) ws) ∧ _
    rw [Words.append, hoff, and_assoc]

/-- The word at an offset. -/
theorem Words.get : ∀ {a : Word} {ws : List Word} {k : Nat}, Words m a ws → (hk : k < ws.length) →
    m (a + BitVec.ofNat 32 (4 * k)) = ws[k]
  | a, w :: ws, 0, h, _ => by simpa using h.1
  | a, w :: ws, k + 1, h, hk => by
    have hoff : a + BitVec.ofNat 32 (4 * (k + 1)) = a + 4 + BitVec.ofNat 32 (4 * k) := by
      rw [Nat.mul_succ, Nat.add_comm, BitVec.ofNat_add, BitVec.add_assoc]
      rfl
    rw [hoff, h.2.get (Nat.lt_of_succ_lt_succ hk)]
    rfl

/-- A word is changed. -/
theorem Words.set : ∀ {a : Word} {ws : List Word} {k : Nat}, Words m a ws → a.toNat + 4 * ws.length < 4294967296 →
    k < ws.length → Words (update m (a + BitVec.ofNat 32 (4 * k)) v) a (ws.set k v)
  | a, w :: ws, 0, ⟨_, hws⟩, hlt, _ => by
    rw [List.length_cons] at hlt
    have hnext := toNat_add_four (a := a) (by omega)
    refine ⟨by simp, hws.congr (by omega) fun b h1 _ => update_of_ne (fun hc => ?_) _ _⟩
    rw [hc] at h1
    simp at h1
    omega
  | a, w :: ws, k + 1, ⟨hw, hws⟩, hlt, hk => by
    rw [List.length_cons] at hlt hk
    have hnext := toNat_add_four (a := a) (by omega)
    have hoff : a + BitVec.ofNat 32 (4 * (k + 1)) = a + 4 + BitVec.ofNat 32 (4 * k) := by
      rw [Nat.mul_succ, Nat.add_comm, BitVec.ofNat_add, BitVec.add_assoc]
      rfl
    rw [hoff]
    refine ⟨?_, hws.set (by omega) (by omega)⟩
    rw [update_of_ne, hw]
    intro hc
    have hval := congrArg BitVec.toNat hc
    rw [BitVec.toNat_add, hnext, BitVec.toNat_ofNat] at hval
    omega

end

/-! ## The stack -/

/-- The words from `esp` up to `top`. -/
structure Stack (c : Cpu) (top : Nat) (ws : List Word) : Prop where
  words : Words c.mem c.esp ws
  height : c.esp.toNat + 4 * ws.length = top
  lt : top < 4294967296

section
variable {c c' : Cpu} {top : Nat} {w v : Word} {ws : List Word} {k : Nat}

theorem Stack.congr (h : Stack c top ws) (hesp : c'.esp = c.esp)
    (hm : ∀ b : Word, c.esp.toNat ≤ b.toNat → b.toNat < top → c'.mem b = c.mem b) : Stack c' top ws where
  words := by
    rw [hesp]
    have := h.height
    have := h.lt
    exact h.words.congr (by omega) fun b h1 h2 => hm b h1 (by omega)
  height := hesp ▸ h.height
  lt := h.lt

theorem Stack.push (h : Stack c top ws) (v : Word) (hroom : 4 * (ws.length + 1) ≤ top) : Stack (c.push v) top (v :: ws) := by
  have htop := h.height
  have hlt := h.lt
  have hesp : (c.esp - 4).toNat = c.esp.toNat - 4 := by
    rw [BitVec.toNat_sub]
    simp
    omega
  have hback : c.esp - 4 + 4 = c.esp := BitVec.sub_add_cancel _ _
  refine ⟨⟨update_self _ _ _, ?_⟩, ?_, hlt⟩
  · show Words (update c.mem (c.esp - 4) v) (c.esp - 4 + 4) ws
    rw [hback]
    refine h.words.congr (by omega) fun b h1 _ => update_of_ne (fun hc => ?_) _ _
    rw [hc] at h1
    omega
  · show (c.esp - 4).toNat + 4 * (ws.length + 1) = top
    omega

theorem Stack.top_eq (h : Stack c top (w :: ws)) : c.top = w := h.words.1

theorem Stack.drop (h : Stack c top (w :: ws)) : Stack (c.addEsp 4) top ws := by
  have htop := h.height
  have hlt := h.lt
  rw [List.length_cons] at htop
  refine ⟨h.words.2, ?_, hlt⟩
  show (c.esp + 4).toNat + 4 * ws.length = top
  rw [toNat_add_four (by omega)]
  omega

/-- The word at an offset from `esp`. -/
theorem Stack.peek (h : Stack c top ws) (hk : k < ws.length) : c.mem (c.esp + BitVec.ofNat 32 (4 * k)) = ws[k] := h.words.get hk

/-- It is changed. -/
theorem Stack.poke (h : Stack c top ws) (hk : k < ws.length) (v : Word) :
    Stack (c.store (c.esp + BitVec.ofNat 32 (4 * k)) v) top (ws.set k v) := by
  have htop := h.height
  have hlt := h.lt
  refine ⟨h.words.set (by omega) hk, ?_, hlt⟩
  rw [List.length_set]
  exact htop

/-- A word elsewhere is changed. -/
theorem Stack.store (h : Stack c top ws) {a : Word} (ha : a.toNat < c.esp.toNat ∨ top ≤ a.toNat) (v : Word) :
    Stack (c.store a v) top ws :=
  h.congr rfl fun b h1 h2 => update_of_ne (fun hc => by rw [hc] at h1 h2; omega) _ _

theorem Stack.set (h : Stack c top ws) (r : Gpr) (v : Word) : Stack (c.set r v) top ws := h.congr rfl fun _ _ _ => rfl

theorem Stack.setSeg (h : Stack c top ws) (r : Seg) (v : Word) : Stack (c.setSeg r v) top ws := h.congr rfl fun _ _ _ => rfl

theorem Stack.pop (h : Stack c top (w :: ws)) (r : Gpr) : Stack (c.pop r) top ws := (h.set r c.top).drop

theorem Stack.pop_eq (h : Stack c top (w :: ws)) (r : Gpr) : c.pop r = (c.set r w).addEsp 4 := by
  unfold Cpu.pop
  rw [h.top_eq]

/-! ## All registers -/

theorem gprs_eta (f : Gpr → Word) : gprs (f .eax) (f .ecx) (f .edx) (f .ebx) (f .ebp) (f .esi) (f .edi) = f := by
  funext r
  cases r <;> rfl

theorem segs_eta (f : Seg → Word) : segs (f .ds) (f .es) (f .fs) (f .gs) = f := by
  funext r
  cases r <;> rfl

theorem Stack.pushad (h : Stack c top ws) (hroom : 4 * (ws.length + 8) ≤ top) :
    Stack c.pushad top
      ([c.gpr .edi, c.gpr .esi, c.gpr .ebp, c.esp, c.gpr .ebx, c.gpr .edx, c.gpr .ecx, c.gpr .eax] ++ ws) := by
  have h₁ := h.push (c.gpr .eax) (by omega)
  have h₂ := h₁.push (c.gpr .ecx) (by simp only [List.length_cons]; omega)
  have h₃ := h₂.push (c.gpr .edx) (by simp only [List.length_cons]; omega)
  have h₄ := h₃.push (c.gpr .ebx) (by simp only [List.length_cons]; omega)
  have h₅ := h₄.push c.esp (by simp only [List.length_cons]; omega)
  have h₆ := h₅.push (c.gpr .ebp) (by simp only [List.length_cons]; omega)
  have h₇ := h₆.push (c.gpr .esi) (by simp only [List.length_cons]; omega)
  exact h₇.push (c.gpr .edi) (by simp only [List.length_cons]; omega)

theorem Stack.popad {eax ecx edx ebx esp ebp esi edi : Word}
    (h : Stack c top ([edi, esi, ebp, esp, ebx, edx, ecx, eax] ++ ws)) :
    Stack c.popad top ws ∧ c.popad = { c with gpr := gprs eax ecx edx ebx ebp esi edi, esp := c.popad.esp } := by
  have h₁ := h.pop .edi
  have h₂ := h₁.pop .esi
  have h₃ := h₂.pop .ebp
  have h₄ := h₃.drop
  have h₅ := h₄.pop .ebx
  have h₆ := h₅.pop .edx
  have h₇ := h₆.pop .ecx
  have h₈ := h₇.pop .eax
  refine ⟨h₈, ?_⟩
  unfold Cpu.popad
  rw [h₇.pop_eq, h₆.pop_eq, h₅.pop_eq, h₄.pop_eq, h₂.pop_eq, h₁.pop_eq, h.pop_eq]
  unfold Cpu.addEsp Cpu.set
  congr 2
  funext r
  cases r <;> simp [gprs, update]

end

end Enix.Core.Asm
