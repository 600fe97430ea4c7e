import Enix.Memory.ForkFails

/-!
# Generations of a process (`userprog/fork.c`, `lib/string.c`)

The members of a `task_struct` that a fork copies are here bytes of its page:
`name` is followed by `priority` and `ticks`. Each generation appends `_fork`.

* `Follows`: a command on records and bytes that does to the memory what the
  command of `Enix.Memory` does.
* `Line`: a process forks, its child forks, and so on; other calls may come
  between.
* `line_forkOk_iff`: in a line in which memory is found, the fork of generation
  `n` is as it should be exactly when the first name has room for `n + 1` suffixes.

The counts that `update_inode_open_cnts` raises are in `Enix.Userprog.Process`.
-/
set_option autoImplicit false

namespace Enix.Userprog
open Enix.Core Enix.Kernel Enix.Memory Function

/-! ## `struct task_struct`, mirrors src/thread/thread.h:97-133 -/

/-- `self_kstack`. -/
def selfKstackAt : Nat := 0
/-- `pid`. -/
def pidAt : Nat := 4
/-- `status`. -/
def statusAt : Nat := 8
/-- `name[16]`. -/
def nameAt : Nat := 12
/-- `priority`, one byte. -/
def priorityAt : Nat := 28
/-- `ticks`, one byte. -/
def ticksAt : Nat := 29
/-- `elapsed_ticks`. -/
def elapsedTicksAt : Nat := 32
/-- `fd_table[8]`. -/
def fdTableAt : Nat := 36
/-- `general_tag` and `all_list_tag`. -/
def tagsAt : Nat := 68
/-- `pgdir`. -/
def pgdirAt : Nat := 84
/-- `userprog_vaddr.vaddr_bitmap.bits`. -/
def bitsAt : Nat := 92
/-- `parent_pid`. -/
def parentPidAt : Nat := 272
/-- `sizeof(intr_stack_t)`. -/
def intrStackSize : Nat := 76

/-- The memory and the pages of the tasks, and the ready queue. -/
structure Tasks where
  vm : Vm
  /-- by the page of the `task_struct` -/
  pcb : Nat → Bytes
  threadReadyList : List Nat

/-- Why a fork stops. -/
inductive Halt where
  | vm (x : Stop)
  /-- the ASSERTs of `sys_fork` about the two lists -/
  | listed
  /-- the ASSERTs of `update_inode_open_cnts` and `fd_local2global` -/
  | fdTable
  deriving DecidableEq

abbrev F (α : Type) := Cmd Tasks Halt α

/-- What the memory does. -/
def lift {α : Type} (m : M α) : F α := fun S =>
  match m S.vm with
  | .ok (a, s) => .ok (a, { S with vm := s })
  | .error x => .error (.vm x)

/-- A store to the page of task `p`. -/
def storePcb (p : Nat) (g : Bytes → Bytes) : F Unit :=
  Cmd.change fun S => { S with pcb := update S.pcb p (g (S.pcb p)) }

/-! ## Strings -/

/-- The loop reads `n` bytes at most: those of the page.
mirrors src/lib/string.c:53-60 (`strlen`) -/
def strlen (b : Bytes) : (a n : Nat) → Nat
  | _, 0 => 0
  | a, n + 1 => if b a = 0 then 0 else strlen b (a + 1) n + 1

/-- The bytes of a list, and 0 behind them. -/
def cString (l : List UInt8) : Bytes := fun i => l.getD i 0

/-- mirrors src/lib/string.c:109-119 (`strcat`) -/
def strcat (b : Bytes) (dst : Nat) (src : List UInt8) : Bytes :=
  splice b (dst + strlen b dst (4096 - dst)) (cString src) (src.length + 1)

/-! ## Fork -/

/-- The members that get values of their own.
mirrors src/userprog/fork.c:25-31 -/
def ownMembers (pid parentPid : Int) (b : Bytes) : Bytes :=
  let b := splice b pidAt (words fun _ => pid.toNat) 2
  let b := putWord b elapsedTicksAt 0
  let b := putWord b statusAt 1
  let b := update b ticksAt (b priorityAt)
  let b := putWord b parentPidAt parentPid.toNat
  splice b tagsAt zeros 16

/-- mirrors src/userprog/fork.c:19-52 (`copy_pcb_vaddrbitmap_stack0`) -/
def copyPcbVaddrbitmapStack0 (child parent : Nat) : F Int := do
  lift (copyPage child parent)
  Cmd.change fun S => { S with pcb := update S.pcb child (S.pcb parent) }
  let t ← lift (task parent)
  let pid ← lift allocatePid
  lift (Cmd.change (·.setTask child (some { t with pid := pid, status := .ready, parentPid := t.pid })))
  storePcb child (ownMembers pid t.pid)
  lift (blockDescInit (4096 * child + uBlockDesc))
  match ← lift (getKernelPages bitmapPgCnt) with
  | none => pure (-1)
  | some b =>
    lift (copyPages b t.userprogVaddr.bits bitmapPgCnt)
    storePcb child (putWord · bitsAt (4096 * b))
    let x ← Cmd.read (·.pcb child)
    Cmd.guard (strlen x nameAt (4096 - nameAt) < 16) (.vm (.assertion .forkName))
    storePcb child (strcat · nameAt forkSuffix)
    lift (Cmd.change (·.setTask child (some { t with
      pid := pid, status := .ready, parentPid := t.pid, name := t.name ++ forkSuffix,
      userprogVaddr := { t.userprogVaddr with bits := b } })))
    pure 0

/-- `eax` of the child, and a frame that `switch_to` leaves to `intr_exit`.
mirrors src/userprog/fork.c:153-176 (`build_child_stack`) -/
def buildChildStack (child intrExit : Nat) (b : Bytes) : Bytes :=
  let intr0 := 4096 - intrStackSize
  let b := putWord b (intr0 + 32) 0
  let b := putWord b (intr0 - 4) intrExit
  let b := splice b (intr0 - 20) zeros 16
  putWord b selfKstackAt (4096 * child + (intr0 - 20))

/-- `int32_t`. -/
def int32 (w : Nat) : Int := if w < 2147483648 then w else w - 4294967296

/-- Entry `fd` of `fd_table`. -/
def fdEntry (b : Bytes) (fd : Nat) : Int := int32 (le32 b (fdTableAt + 4 * fd))

/-- The loop over the descriptors, `n` of them from `localFd` on. `is_pipe` looks
at the table of the parent.
mirrors src/userprog/fork.c:183-199 (`update_inode_open_cnts`) -/
def updateInodeOpenCnts (child parent : Nat) : (localFd n : Nat) → F Unit
  | _, 0 => pure ()
  | localFd, n + 1 => do
    let b ← Cmd.read (·.pcb child)
    Cmd.guard (fdEntry b localFd < 32) .fdTable
    let x ← Cmd.read (·.pcb parent)
    Cmd.guard (fdEntry b localFd = -1 ∨ 0 ≤ fdEntry x localFd ∧ fdEntry x localFd < 32) .fdTable
    updateInodeOpenCnts child parent (localFd + 1) n

/-- mirrors src/userprog/fork.c:208-238 (`copy_process`) -/
def copyProcess (intrExit child parent : Nat) : F Int := do
  if (← copyPcbVaddrbitmapStack0 child parent) = 1 then pure (-1)
  else do
    let pgdir ← lift createPageDir
    let t ← lift (task child)
    lift (Cmd.change (·.setTask child (some { t with pgdir := pgdir.getD 0 })))
    storePcb child (putWord · pgdirAt (4096 * pgdir.getD 0))
    if pgdir = none then pure (-1)
    else do
      lift (copyPageTables child parent)
      storePcb child (buildChildStack child intrExit)
      updateInodeOpenCnts child parent 3 5
      pure 0

/-- mirrors src/userprog/fork.c:245-266 (`sys_fork`) -/
def sysFork (intrExit : Nat) : F Int := do
  let parent ← Cmd.read (·.vm.cur)
  match ← lift (getKernelPages 1) with
  | none => pure (-1)
  | some child =>
    Cmd.guard ((← lift (task parent)).pgdir ≠ 0) (.vm (.assertion .sysFork))
    if (← copyProcess intrExit child parent) = -1 then pure (-1)
    else do
      Cmd.guard (child ∉ (← Cmd.read (·.threadReadyList))) .listed
      Cmd.change fun S => { S with threadReadyList := S.threadReadyList ++ [child] }
      Cmd.guard (child ∉ (← Cmd.read (·.vm.threadAllList))) .listed
      lift (Cmd.change fun s => { s with threadAllList := s.threadAllList ++ [child] })
      pure (← lift (task child)).pid

/-- The members `name`, `priority` and `fd_table` are the same. -/
def Same (x y : Bytes) : Prop :=
  ∀ a, nameAt ≤ a ∧ a ≤ priorityAt ∨ fdTableAt ≤ a ∧ a < tagsAt → y a = x a

/-- What `update_inode_open_cnts` takes for granted: the entries are -1 or slots
of `file_table`. -/
def FdOk (b : Bytes) : Prop :=
  ∀ fd, 3 ≤ fd → fd < 8 → fdEntry b fd = -1 ∨ 0 ≤ fdEntry b fd ∧ fdEntry b fd < 32

/-- A string of `l` characters at `name`. -/
def NameLen (b : Bytes) (l : Nat) : Prop := (∀ j, j < l → b (nameAt + j) ≠ 0) ∧ b (nameAt + l) = 0

/-- A name of `l` characters, of which the field holds 16 at the most. -/
def Spelled (b : Bytes) (l : Nat) : Prop := l < 16 ∧ NameLen b l ∨ 16 ≤ l ∧ ∀ j, j < 16 → b (nameAt + j) ≠ 0

/-- A process runs that may fork. -/
structure Ready (S : Tasks) : Prop where
  reach : Reachable Call.Ready S.vm
  process : S.vm.inProcess
  few : alive S.vm.spaces + 1 < 256
  small : S.vm.small
  fds : FdOk (S.pcb S.vm.cur)
  listed : ∀ q, q ∈ S.threadReadyList ∨ q ∈ S.vm.threadAllList → S.vm.tasks q ≠ none

/-- `sys_fork` returns a child that has the `priority` and the `fd_table` of its
parent, and a string in its `name`. -/
def ForkOk (intrExit : Nat) (S : Tasks) : Prop := ∃ r S' c tc, sysFork intrExit S = .ok (r, S') ∧ r ≠ -1 ∧
  S.vm.tasks c = none ∧ S'.vm.tasks c = some tc ∧ tc.pid = r ∧
  S'.pcb c priorityAt = S.pcb S.vm.cur priorityAt ∧
  (∀ k, k < 32 → S'.pcb c (fdTableAt + k) = S.pcb S.vm.cur (fdTableAt + k)) ∧
  ∃ j, j < 16 ∧ S'.pcb c (nameAt + j) = 0

/-- From the end `S'` of a fork in `S` to a state in which the child runs, with
the name that it was given. -/
structure Turn (S S' S'' : Tasks) : Prop where
  child : S.vm.tasks S''.vm.cur = none
  record : ∃ tc t, S'.vm.tasks S''.vm.cur = some tc ∧ S''.vm.tasks S''.vm.cur = some t ∧ t.name = tc.name
  name : ∀ j, j < 16 → S''.pcb S''.vm.cur (nameAt + j) = S'.pcb S''.vm.cur (nameAt + j)
  ready : Ready S''

/-- After `n` forks, each by the child of the last and each with memory, it is
the turn of the last child. -/
inductive Line (intrExit : Nat) (first : Tasks) : Nat → Tasks → Prop where
  | first : Line intrExit first 0 first
  | next {n : Nat} {S S' S'' : Tasks} {r : Int} {t : TaskStruct} : Line intrExit first n S →
    S.vm.tasks S.vm.cur = some t → ForkRoom S.vm t → sysFork intrExit S = .ok (r, S') → Turn S S' S'' →
    Line intrExit first (n + 1) S''

section
variable {α β : Type} {b x y z : Bytes} {S S' : Tasks} {E : Halt → Prop} {m : M α} {a c d i j k l n o p v w : Nat}

/-! ## Strings in a page -/

theorem strlen_eq (hz : b (a + l) = 0) (hn : l < n) (hc : ∀ j, j < l → b (a + j) ≠ 0) : strlen b a n = l := by
  induction l generalizing a n with
  | zero =>
    cases n with
    | zero => omega
    | succ n =>
      unfold strlen
      exact if_pos hz
  | succ l ih =>
    cases n with
    | zero => omega
    | succ n =>
      have h0 : b a ≠ 0 := hc 0 (Nat.succ_pos l)
      unfold strlen
      rw [if_neg h0, ih (by rw [show a + 1 + l = a + (l + 1) by omega]; exact hz) (by omega) fun j hj => by
        rw [show a + 1 + j = a + (j + 1) by omega]
        exact hc (j + 1) (by omega)]

theorem le_strlen (hn : l ≤ n) (hc : ∀ j, j < l → b (a + j) ≠ 0) : l ≤ strlen b a n := by
  induction l generalizing a n with
  | zero => exact Nat.zero_le _
  | succ l ih =>
    cases n with
    | zero => omega
    | succ n =>
      have h0 : b a ≠ 0 := hc 0 (Nat.succ_pos l)
      unfold strlen
      rw [if_neg h0]
      have := ih (a := a + 1) (n := n) (by omega) fun j hj => by
        rw [show a + 1 + j = a + (j + 1) by omega]
        exact hc (j + 1) (by omega)
      omega

theorem NameLen.same (h : NameLen x l) (hl : l < 16) (hs : Same x y) : NameLen y l := by
  have hn : nameAt = 12 := rfl
  have hp : priorityAt = 28 := rfl
  refine ⟨fun j hj => ?_, ?_⟩
  · rw [hs _ (by omega)]
    exact h.1 j hj
  · rw [hs _ (by omega)]
    exact h.2

theorem NameLen.strlen (h : NameLen b l) (hl : l < 16) : strlen b nameAt (4096 - nameAt) = l :=
  strlen_eq h.2 (by unfold nameAt; omega) h.1

/-- Where the string is written. -/
theorem NameLen.strcat_in (h : NameLen b l) (hl : l < 16) (hj : j ≤ 5) :
    strcat b nameAt forkSuffix (nameAt + l + j) = cString forkSuffix j := by
  have hlen : forkSuffix.length = 5 := rfl
  unfold strcat
  rw [h.strlen hl, splice_in (by omega) (by omega), show nameAt + l + j - (nameAt + l) = j by omega]

theorem NameLen.strcat_out (h : NameLen b l) (hl : l < 16) (ha : a < nameAt + l ∨ nameAt + l + 6 ≤ a) :
    strcat b nameAt forkSuffix a = b a := by
  have hlen : forkSuffix.length = 5 := rfl
  unfold strcat
  rw [h.strlen hl, splice_out (by omega)]

/-- The characters of `_fork`. -/
theorem suffix_ne (hj : j < 5) : cString forkSuffix j ≠ 0 := by
  have hall : ∀ j : Fin 5, cString forkSuffix j.val ≠ 0 := by decide
  exact hall ⟨j, hj⟩

/-- A name with room for `_fork` has it appended, and nothing else changes. -/
theorem NameLen.append (h : NameLen b l) (hl : l + 5 < 16) :
    NameLen (strcat b nameAt forkSuffix) (l + 5) ∧ strcat b nameAt forkSuffix priorityAt = b priorityAt := by
  have hn : nameAt = 12 := rfl
  have hp : priorityAt = 28 := rfl
  refine ⟨⟨fun j hj => ?_, ?_⟩, h.strcat_out (by omega) (by omega)⟩
  · by_cases hjl : j < l
    · rw [h.strcat_out (by omega) (by omega)]
      exact h.1 j hjl
    · rw [show nameAt + j = nameAt + l + (j - l) by omega, h.strcat_in (by omega) (by omega)]
      exact suffix_ne (by omega)
  · rw [show nameAt + (l + 5) = nameAt + l + 5 by omega, h.strcat_in (by omega) (by omega)]
    rfl

/-- Without room it fills the field, and the 0 is behind it. -/
theorem NameLen.overflow (h : NameLen b l) (hl : l < 16) (hlong : 16 ≤ l + 5) (hj : j < 16) :
    strcat b nameAt forkSuffix (nameAt + j) ≠ 0 := by
  by_cases hjl : j < l
  · rw [h.strcat_out hl (by omega)]
    exact h.1 j hjl
  · rw [show nameAt + j = nameAt + l + (j - l) by omega, h.strcat_in hl (by omega)]
    exact suffix_ne (by omega)

/-- The table of descriptors is out of its reach. -/
theorem strcat_fdTable (h : strlen b nameAt (4096 - nameAt) < 16) (ha : fdTableAt ≤ a) :
    strcat b nameAt forkSuffix a = b a := by
  have hn : nameAt = 12 := rfl
  have hf : fdTableAt = 36 := rfl
  have hlen : forkSuffix.length = 5 := rfl
  exact splice_out (by omega)

theorem Spelled.check (h : Spelled x l) (hs : Same x y) : strlen y nameAt (4096 - nameAt) < 16 ↔ l < 16 := by
  have hn : nameAt = 12 := rfl
  have hp : priorityAt = 28 := rfl
  cases h with
  | inl h =>
    rw [(h.2.same h.1 hs).strlen h.1]
  | inr h =>
    have hle := le_strlen (b := y) (a := nameAt) (l := 16) (n := 4096 - nameAt) (by omega) fun j hj => by
      rw [hs _ (by omega)]
      exact h.2 j hj
    omega

/-- The name of a child. -/
theorem Spelled.append (h : Spelled x l) (hl : l < 16) (hs : Same x y) :
    Spelled (strcat y nameAt forkSuffix) (l + 5) := by
  cases h with
  | inr h => exact absurd h.1 (by omega)
  | inl h =>
    have hname := h.2.same hl hs
    by_cases hlong : l + 5 < 16
    · exact .inl ⟨hlong, (hname.append hlong).1⟩
    · exact .inr ⟨by omega, fun j hj => hname.overflow hl (by omega) hj⟩

theorem Spelled.congr (h : Spelled x l) (hs : ∀ j, j < 16 → y (nameAt + j) = x (nameAt + j)) : Spelled y l := by
  cases h with
  | inl h => exact .inl ⟨h.1, fun j hj => by rw [hs j (by omega)]; exact h.2.1 j hj, by rw [hs l h.1]; exact h.2.2⟩
  | inr h => exact .inr ⟨h.1, fun j hj => by rw [hs j hj]; exact h.2 j hj⟩

/-! ## Stores to other members -/

theorem Same.refl (x : Bytes) : Same x x := fun _ _ => rfl

theorem Same.trans (h₁ : Same x y) (h₂ : Same y z) : Same x z := fun a ha => (h₂ a ha).trans (h₁ a ha)

theorem Same.splice (h : o + n ≤ nameAt ∨ tagsAt ≤ o ∨ priorityAt < o ∧ o + n ≤ fdTableAt) (src : Bytes) :
    Same x (splice x o src n) := by
  have hp : priorityAt = 28 := rfl
  have hf : fdTableAt = 36 := rfl
  have hn : nameAt = 12 := rfl
  have ht : tagsAt = 68 := rfl
  intro a ha
  exact splice_out (by omega)

theorem Same.putWord (h : o + 4 ≤ nameAt ∨ tagsAt ≤ o ∨ priorityAt < o ∧ o + 4 ≤ fdTableAt) (w : Nat) :
    Same x (putWord x o w) := Same.splice h _

theorem Same.ownMembers (pid ppid : Int) : Same x (ownMembers pid ppid x) := by
  have hp : priorityAt = 28 := rfl
  have hf : fdTableAt = 36 := rfl
  have ht : ticksAt = 29 := rfl
  have hticks : ∀ y : Bytes, Same y (update y ticksAt (y priorityAt)) := fun y a ha => update_of_ne (by omega) ..
  have h₁ := Same.splice (x := x) (o := pidAt) (n := 2) (by decide) (words fun _ => pid.toNat)
  have h₂ := h₁.trans (Same.putWord (o := elapsedTicksAt) (by decide) 0)
  have h₃ := h₂.trans (Same.putWord (o := statusAt) (by decide) 1)
  have h₄ := (h₃.trans (hticks _)).trans (Same.putWord (o := parentPidAt) (by decide) ppid.toNat)
  exact h₄.trans (Same.splice (o := tagsAt) (n := 16) (by decide) zeros)

theorem Same.buildChildStack (child intrExit : Nat) : Same x (buildChildStack child intrExit x) := by
  have h₁ := Same.putWord (x := x) (o := 4096 - intrStackSize + 32) (by decide) 0
  have h₂ := h₁.trans (Same.putWord (o := 4096 - intrStackSize - 4) (by decide) intrExit)
  have h₃ := h₂.trans (Same.splice (o := 4096 - intrStackSize - 20) (n := 16) (by decide) zeros)
  exact h₃.trans (Same.putWord (o := selfKstackAt) (by decide) _)

theorem Same.fdEntry (h : Same x y) (h₁ : 3 ≤ l) (h₂ : l < 8) : fdEntry y l = fdEntry x l := by
  have hf : fdTableAt = 36 := rfl
  have ht : tagsAt = 68 := rfl
  unfold Userprog.fdEntry le32
  rw [h _ (by omega), h _ (by omega), h _ (by omega), h _ (by omega)]

/-! ## What the memory does -/

/-- `n` returns in `Q`, and does to the memory what `m` does, or stops as `m` does. -/
def Follows (n : F α) (m : M α) (Q : α → Tasks → Prop) (S : Tasks) : Prop :=
  match n S with
  | .ok (a, S') => m S.vm = .ok (a, S'.vm) ∧ Q a S'
  | .error e => ∃ y, e = .vm y ∧ m S.vm = .error y

theorem Follows.pure {Q : α → Tasks → Prop} {a : α} (h : Q a S) : Follows (pure a) (pure a) Q S := ⟨rfl, h⟩

theorem Follows.bind {n : F α} {g : α → F β} {f : α → M β} {P : α → Tasks → Prop} {Q : β → Tasks → Prop}
    (h : Follows n m P S) (hf : ∀ a S', m S.vm = .ok (a, S'.vm) → P a S' → Follows (g a) (f a) Q S') :
    Follows (n >>= g) (m >>= f) Q S := by
  unfold Follows at h ⊢
  rw [bind_run, bind_run]
  cases hn : n S with
  | ok r =>
    obtain ⟨a, S'⟩ := r
    rw [hn] at h
    rw [h.1]
    exact hf a S' h.1 h.2
  | error e =>
    rw [hn] at h
    obtain ⟨y, rfl, hm⟩ := h
    rw [hm]
    exact ⟨y, rfl, rfl⟩

/-- The memory moves, the bytes stay. -/
theorem Follows.move {g : α → F β} {f : α → M β} {Q : β → Tasks → Prop}
    (hf : ∀ a s', m S.vm = .ok (a, s') → Follows (g a) (f a) Q { S with vm := s' }) :
    Follows (lift m >>= g) (m >>= f) Q S := by
  refine Follows.bind (P := fun _ S' => S' = { S with vm := S'.vm }) ?_ fun a S' hm hS => ?_
  · unfold Follows lift
    cases hm : m S.vm with
    | ok r => exact ⟨rfl, rfl⟩
    | error y => exact ⟨y, rfl, rfl⟩
  · rw [hS]
    exact hf a S'.vm hm

/-- The bytes change, the memory stays. -/
theorem Follows.change {g : Unit → F β} {m : M β} {h : Tasks → Tasks} {Q : β → Tasks → Prop} (hv : (h S).vm = S.vm)
    (hg : Follows (g ()) m Q (h S)) : Follows (Cmd.change h >>= g) m Q S := by
  unfold Follows at hg ⊢
  rw [bind_run, change_run]
  rw [hv] at hg
  exact hg

theorem Follows.read {γ : Type} {r : Tasks → γ} {g : γ → F β} {m : M β} {Q : β → Tasks → Prop}
    (hg : Follows (g (r S)) m Q S) : Follows (Cmd.read r >>= g) m Q S := hg

/-- Both look at their state. -/
theorem Follows.reads {γ γ' : Type} {r : Tasks → γ} {r' : Vm → γ'} {g : γ → F β} {f : γ' → M β} {Q : β → Tasks → Prop}
    (hg : Follows (g (r S)) (f (r' S.vm)) Q S) : Follows (Cmd.read r >>= g) (Cmd.read r' >>= f) Q S := hg

/-- A check that holds. -/
theorem Follows.check {c : Prop} [Decidable c] {e : Halt} {g : Unit → F β} {m : M β} {Q : β → Tasks → Prop} (hc : c)
    (hg : Follows (g ()) m Q S) : Follows (Cmd.guard c e >>= g) m Q S := by
  unfold Cmd.guard
  rw [if_pos hc]
  exact hg

/-- A check that both make. -/
theorem Follows.guard {c c' : Prop} [Decidable c] [Decidable c'] {y : Stop} {g : Unit → F β} {f : Unit → M β}
    {Q : β → Tasks → Prop} (hc : c ↔ c') (hg : c → Follows (g ()) (f ()) Q S) :
    Follows (Cmd.guard c (.vm y) >>= g) (Cmd.guard c' y >>= f) Q S := by
  unfold Cmd.guard
  by_cases h : c
  · rw [if_pos h, if_pos (hc.1 h)]
    exact hg h
  · rw [if_neg h, if_neg fun h' => h (hc.2 h')]
    exact ⟨y, rfl, rfl⟩

theorem copyPage_keeps (dst src : Nat) : Keeps (·.tasks) (copyPage dst src) := by
  unfold copyPage
  exact (Keeps.read _).bind fun _ => (Keeps.get _ _).bind fun _ => (Keeps.read _).bind fun _ =>
    (Keeps.get _ _).bind fun _ => .change fun _ => rfl

theorem Follows.ok {n : F α} {Q : α → Tasks → Prop} {r : α} {s' : Vm} (h : Follows n m Q S) (hm : m S.vm = .ok (r, s')) :
    ∃ S', n S = .ok (r, S') ∧ S'.vm = s' ∧ Q r S' := by
  unfold Follows at h
  split at h
  · rename_i a S' he
    rw [hm] at h
    obtain ⟨hr, hq⟩ := h
    cases hr
    exact ⟨S', he, rfl, hq⟩
  · obtain ⟨y, -, hy⟩ := h
    rw [hm] at hy
    cases hy

theorem Follows.of_ok {n : F α} {Q : α → Tasks → Prop} {r : α} (h : Follows n m Q S) (hn : n S = .ok (r, S')) :
    m S.vm = .ok (r, S'.vm) ∧ Q r S' := by
  unfold Follows at h
  rw [hn] at h
  exact h

/-- `copy_pcb_vaddrbitmap_stack0` on bytes. -/
theorem copyPcb_follows {t : TaskStruct} (ht : S.vm.tasks p = some t) (hn : Spelled (S.pcb p) t.name.length)
    (hne : p ≠ c) :
    Follows (copyPcbVaddrbitmapStack0 c p) (Memory.copyPcbVaddrbitmapStack0 c p) (fun r S' =>
      S'.pcb p = S.pcb p ∧ S'.threadReadyList = S.threadReadyList ∧ (r = 0 → t.name.length < 16 ∧
        ∃ y, Same (S.pcb p) y ∧ S'.pcb c = strcat y nameAt forkSuffix)) S := by
  unfold copyPcbVaddrbitmapStack0 Memory.copyPcbVaddrbitmapStack0
  refine Follows.move fun _ s₁ h₁ => ?_
  have hkeep : s₁.tasks = S.vm.tasks := copyPage_keeps c p _ _ _ h₁
  refine Follows.change rfl ?_
  refine Follows.move fun t' s₂ h₂ => ?_
  rw [task_run (show s₁.tasks p = some t by rw [hkeep]; exact ht)] at h₂
  cases h₂
  refine Follows.move fun pid s₃ _ => ?_
  refine Follows.move fun _ s₄ _ => ?_
  refine Follows.change rfl ?_
  refine Follows.move fun _ s₅ _ => ?_
  refine Follows.move fun o s₆ _ => ?_
  cases o with
  | none => exact Follows.pure ⟨by simp only [update_of_ne hne], rfl, fun h0 => absurd h0 (by decide)⟩
  | some b =>
    refine Follows.move fun _ s₇ _ => ?_
    refine Follows.change rfl (Follows.read ?_)
    have hsame : ∀ y, y = putWord (ownMembers pid t.pid (S.pcb p)) bitsAt (4096 * b) → Same (S.pcb p) y := by
      intro y hy
      rw [hy]
      exact (Same.ownMembers _ _).trans (Same.putWord (o := bitsAt) (by decide) _)
    have hcheck := hn.check (hsame _ rfl)
    refine Follows.guard (by simpa only [update_self] using hcheck) fun hlen => ?_
    simp only [update_self] at hlen
    refine Follows.change rfl ?_
    refine Follows.move fun _ s₈ _ => ?_
    refine Follows.pure ⟨by simp only [update_of_ne hne], rfl, fun _ => ⟨hcheck.1 hlen, _, hsame _ rfl, ?_⟩⟩
    simp only [update_self]

theorem updateInodeOpenCnts_run (hc : ∀ l, 3 ≤ l → l < 8 → fdEntry (S.pcb c) l = fdEntry (S.pcb p) l)
    (hp : FdOk (S.pcb p)) : ∀ n l, 3 ≤ l → l + n ≤ 8 → updateInodeOpenCnts c p l n S = .ok ((), S) := by
  intro n
  induction n with
  | zero =>
    intro l _ _
    rfl
  | succ n ih =>
    intro l h₁ h₂
    have hfd := hp l h₁ (by omega)
    unfold updateInodeOpenCnts
    rw [bind_ok (read_run _ S), bind_ok (guard_run (by rw [hc l h₁ (by omega)]; omega) _ S), bind_ok (read_run _ S),
      bind_ok (guard_run (by rw [hc l h₁ (by omega)]; exact hfd) _ S)]
    exact ih (l + 1) (by omega) (by omega)

/-- `copy_process` on bytes, when the bitmap has been copied. -/
theorem copyProcess_follows {t : TaskStruct} {intrExit : Nat} (ht : S.vm.tasks p = some t)
    (hn : Spelled (S.pcb p) t.name.length) (hne : p ≠ c) (hfd : FdOk (S.pcb p))
    (hzero : ∀ r s', Memory.copyPcbVaddrbitmapStack0 c p S.vm = .ok (r, s') → r = 0) :
    Follows (copyProcess intrExit c p) (Memory.copyProcess c p) (fun r S' =>
      S'.threadReadyList = S.threadReadyList ∧ (r = 0 ∨ r = -1) ∧ t.name.length < 16 ∧
        (r = 0 → ∃ y, Same (S.pcb p) y ∧ Same (strcat y nameAt forkSuffix) (S'.pcb c))) S := by
  unfold copyProcess Memory.copyProcess
  refine Follows.bind (copyPcb_follows ht hn hne) fun r S₁ hm hQ => ?_
  obtain ⟨hp₁, hl₁, h₁⟩ := hQ
  have hr := hzero r S₁.vm hm
  subst hr
  obtain ⟨hlen, y, hy, hc₁⟩ := h₁ rfl
  rw [if_neg (by decide), if_neg (by decide)]
  refine Follows.move fun pgdir s₂ _ => ?_
  refine Follows.move fun tc s₃ _ => ?_
  refine Follows.move fun _ s₄ _ => ?_
  refine Follows.change rfl ?_
  cases pgdir with
  | none => exact Follows.pure ⟨hl₁, .inr rfl, hlen, fun h0 => absurd h0 (by decide)⟩
  | some v =>
    rw [if_neg (by simp), if_neg (by simp)]
    refine Follows.move fun _ s₅ _ => ?_
    refine Follows.change rfl ?_
    simp only [update_self, hc₁]
    have hsame : Same (strcat y nameAt forkSuffix)
        (buildChildStack c intrExit (putWord (strcat y nameAt forkSuffix) pgdirAt (4096 * (some v).getD 0))) :=
      (Same.putWord (o := pgdirAt) (by decide) _).trans (Same.buildChildStack c intrExit)
    have hfds : ∀ l, 3 ≤ l → l < 8 → fdEntry (buildChildStack c intrExit (putWord (strcat y nameAt forkSuffix) pgdirAt
        (4096 * (some v).getD 0))) l = fdEntry (S.pcb p) l := by
      intro l h₃ h₄
      rw [hsame.fdEntry h₃ h₄]
      unfold fdEntry le32
      have hf : fdTableAt = 36 := rfl
      have hlt := (hn.check hy).2 hlen
      rw [strcat_fdTable hlt (by omega), strcat_fdTable hlt (by omega), strcat_fdTable hlt (by omega),
        strcat_fdTable hlt (by omega)]
      exact hy.fdEntry h₃ h₄
    have hrun := updateInodeOpenCnts_run (c := c) (p := p) (S := ⟨s₅, update (update S₁.pcb c (putWord
      (strcat y nameAt forkSuffix) pgdirAt (4096 * (some v).getD 0))) c (buildChildStack c intrExit (putWord
      (strcat y nameAt forkSuffix) pgdirAt (4096 * (some v).getD 0))), S₁.threadReadyList⟩)
      (fun l h₃ h₄ => by simp only [update_self, update_of_ne hne, hp₁]; exact hfds l h₃ h₄)
      (by simp only [update_of_ne hne, hp₁]; exact hfd) 5 3 (by decide) (by decide)
    unfold Follows
    rw [bind_ok hrun]
    refine ⟨rfl, hl₁, .inl rfl, hlen, fun _ => ⟨y, hy, ?_⟩⟩
    simp only [update_self]
    exact hsame

/-! ## One fork -/

/-- What a fork with memory leaves behind: child `c` with the name of its parent
`y` and the suffix. -/
structure Forked (S S' : Tasks) (t : TaskStruct) (c : Nat) (tc : TaskStruct) : Prop where
  unborn : S.vm.tasks c = none
  record : S'.vm.tasks c = some tc
  others : ∀ q, q ≠ c → S'.vm.tasks q = S.vm.tasks q
  name : tc.name = t.name ++ forkSuffix
  bytes : ∃ y, Same (S.pcb S.vm.cur) y ∧ Same (strcat y nameAt forkSuffix) (S'.pcb c)

theorem Ready.sound {t : TaskStruct} (hr : Ready S) (ht : S.vm.tasks S.vm.cur = some t) :
    ∃ L, Sound L S.vm ∧ t.live = true ∧ alive L + 1 < 256 := by
  obtain ⟨L, h⟩ := reachable_sound hr.reach
  obtain ⟨t', ht', hl⟩ := hr.process
  rw [ht] at ht'
  cases ht'
  have hfew := hr.few
  rw [h.live] at hfew
  exact ⟨L, h, hl, hfew⟩

/-- With memory, and a name that fits, the memory's part of a fork returns. -/
theorem Ready.returns {t : TaskStruct} (hr : Ready S) (ht : S.vm.tasks S.vm.cur = some t)
    (hroom : ForkRoom S.vm t) (hlen : t.name.length < 16) : ∃ r s', Memory.sysFork S.vm = .ok (r, s') ∧ r ≠ -1 := by
  obtain ⟨L, h, hl, hfew⟩ := hr.sound ht
  have hall := h.fork_room ht hl hfew hr.small hroom
  cases hres : Memory.sysFork S.vm with
  | error y => exact absurd (runs_of_error hall hres).2 (by omega)
  | ok x =>
    obtain ⟨r, s'⟩ := x
    obtain ⟨c, d, tc, -, hf, hpid⟩ := runs_of_ok hall hres
    obtain ⟨i, -, hi, -⟩ := hf.newPid
    exact ⟨r, s', rfl, by omega⟩

/-- `sys_fork` on bytes, with memory. -/
theorem sysFork_follows {t : TaskStruct} (intrExit : Nat) (hr : Ready S) (ht : S.vm.tasks S.vm.cur = some t)
    (hn : Spelled (S.pcb S.vm.cur) t.name.length) (hroom : ForkRoom S.vm t) :
    Follows (sysFork intrExit) Memory.sysFork (fun r S' =>
      t.name.length < 16 ∧ (r ≠ -1 → ∃ c tc, Forked S S' t c tc ∧ tc.pid = r)) S := by
  obtain ⟨L, h, hl, hfew⟩ := hr.sound ht
  obtain ⟨hpcb, hpf⟩ := h.live_ref ht hl (part_pcb ht)
  have hbits : ∀ k, k < bitmapPgCnt → ∃ f, refs L S.vm (.kernel (t.userprogVaddr.bits + k)) = some f := fun k hk =>
    (h.live_ref ht hl (part_map ht hl hk)).2
  have hall := h.fork_room ht hl hfew hr.small hroom
  unfold Userprog.sysFork Memory.sysFork
  refine Follows.reads (Follows.move fun o s₁ h₁ => ?_)
  obtain ⟨c, hc, _, hc₁, ht₁, hg₁⟩ := runs_of_ok (getPage_kept h.frames h.kernelBits 0) h₁
  subst hc
  have htask : task S.vm.cur s₁ = .ok (t, s₁) := task_run (by rw [ht₁]; exact ht)
  have hpc : S.vm.cur ≠ c := by
    obtain ⟨f, hf⟩ := hpf
    exact hc₁.disjoint (k := 0) (by decide) hf
  have hunborn : S.vm.tasks c = none := by
    by_contra hne
    obtain ⟨u, hu⟩ := Option.ne_none_iff_exists'.1 hne
    exact h.not_part hc₁.heap (hc₁.old 0 (by decide)) (part_pcb hu)
  simp only
  refine Follows.move fun t' s₂ h₂ => ?_
  rw [htask] at h₂
  cases h₂
  refine Follows.guard Iff.rfl fun hdir => ?_
  have hzero : ∀ r s', Memory.copyPcbVaddrbitmapStack0 c S.vm.cur s₁ = .ok (r, s') → r = 0 := fun r s' he =>
    (runs_of_ok (copyPcb_within (B := False) (T := S.vm.tasks) (a := 0) (x := 0) (q := 0) (e := 0) (l := 0)
      ((Kept.refl h.frames h.kernelBits c).got hg₁) hc₁ ht hpc hpcb hpf (h.user _ t ht hl).heap hbits
      (hg₁.bitmapRoom hroom.finds.bitmapRoom) fun hb => hb.elim) he).1
  refine Follows.bind (copyProcess_follows (S := { S with vm := s₁ }) (by rw [ht₁]; exact ht) hn hpc hr.fds hzero)
    fun r₁ S₅ hm hQ => ?_
  obtain ⟨hlist, hr₁, hlen, hbytes⟩ := hQ
  by_cases hneg : r₁ = -1
  · rw [if_pos hneg, if_pos hneg]
    exact Follows.pure ⟨hlen, fun hc => absurd rfl hc⟩
  · rw [if_neg hneg, if_neg hneg]
    -- what the memory's part of the call comes to
    have hrun : Memory.sysFork S.vm = (task c >>= fun tc => pure tc.pid : M Int)
        { S₅.vm with threadAllList := S₅.vm.threadAllList ++ [c] } := by
      unfold Memory.sysFork
      rw [bind_ok (read_run _ _), bind_ok h₁]
      simp only
      rw [bind_ok htask, bind_ok (guard_run hdir _ s₁), bind_ok hm, if_neg hneg, bind_ok (change_run _ _)]
    obtain ⟨d, tc, hf⟩ : ∃ d tc, HasForked L S.vm
        { S₅.vm with threadAllList := S₅.vm.threadAllList ++ [c] } S.vm.cur c d t tc := by
      cases hres : Memory.sysFork S.vm with
      | error y => exact absurd (runs_of_error hall hres).2 (by omega)
      | ok x =>
        obtain ⟨r, s'⟩ := x
        obtain ⟨c', d, tc, -, hf, -⟩ := runs_of_ok hall hres
        rw [hrun] at hres
        obtain ⟨tc', s₆, htask', hend⟩ := bind_eq_ok.1 hres
        obtain ⟨htc', hs₆⟩ := task_ok htask'
        cases hend
        subst hs₆
        have hcc : c' = c := by
          by_contra hne
          have hsame := hf.others c (Ne.symm hne)
          rw [htc', hunborn] at hsame
          cases hsame
        subst hcc
        exact ⟨d, tc, hf⟩
    have hold : S₅.vm.threadAllList = S.vm.threadAllList := List.append_cancel_right hf.threadAllList
    have hnot : ∀ l : List Nat, l = S.threadReadyList ∨ l = S.vm.threadAllList → c ∉ l := fun l hl' hc => by
      refine hr.listed c ?_ hunborn
      cases hl' with
      | inl hl' => exact .inl (hl' ▸ hc)
      | inr hl' => exact .inr (hl' ▸ hc)
    refine Follows.read (Follows.check (hnot _ (.inl hlist)) (Follows.change rfl ?_))
    refine Follows.read (Follows.check (hnot _ (.inr hold)) (Follows.move fun _ s₆ h₆ => ?_))
    cases h₆
    refine Follows.move fun tc' s₇ h₇ => ?_
    obtain ⟨htc', hs₇⟩ := task_ok h₇
    subst hs₇
    rw [hf.record] at htc'
    cases htc'
    obtain ⟨pid, hcopied⟩ := hf.copied
    refine Follows.pure ⟨hlen, fun _ => ⟨c, tc, ⟨hunborn, hf.record, hf.others, ?_, ?_⟩, rfl⟩⟩
    · rw [hcopied]
      rfl
    · cases hr₁ with
      | inl h0 => exact hbytes h0
      | inr h1 => exact absurd h1 hneg

theorem Same.name (h : Same x y) (hj : j < 16) : y (nameAt + j) = x (nameAt + j) := by
  have hn : nameAt = 12 := rfl
  have hp : priorityAt = 28 := rfl
  exact h _ (by omega)

/-- With memory, a fork is as it should be exactly when there is room for the suffix. -/
theorem forkOk_iff {t : TaskStruct} {intrExit : Nat} (hr : Ready S) (ht : S.vm.tasks S.vm.cur = some t)
    (hn : Spelled (S.pcb S.vm.cur) t.name.length) (hroom : ForkRoom S.vm t) :
    ForkOk intrExit S ↔ t.name.length + 5 ≤ 15 := by
  have hf : fdTableAt = 36 := rfl
  have htag : tagsAt = 68 := rfl
  have hp : priorityAt = 28 := rfl
  have hna : nameAt = 12 := rfl
  have hfollows := sysFork_follows intrExit hr ht hn hroom
  constructor
  · intro ⟨r, S', c, tc, hrun, hneg, hno, htc, hpid, hprio, hfds, j, hj, hz⟩
    obtain ⟨-, hlen, hbirth⟩ := hfollows.of_ok hrun
    obtain ⟨c', tc', hfork, -⟩ := hbirth hneg
    have hcc : c = c' := by
      by_contra hne
      rw [hfork.others c hne, hno] at htc
      cases htc
    subst hcc
    obtain ⟨y, hy, hc⟩ := hfork.bytes
    by_contra hlong
    cases hn with
    | inr hn => omega
    | inl hn =>
      rw [hc.name hj] at hz
      exact (hn.2.same hlen hy).overflow hlen (by omega) hj hz
  · intro hshort
    obtain ⟨r, s', hmem, hneg⟩ := hr.returns ht hroom (by omega)
    obtain ⟨S', hrun, rfl, hlen, hbirth⟩ := hfollows.ok hmem
    obtain ⟨c, tc, hfork, hpid⟩ := hbirth hneg
    obtain ⟨y, hy, hc⟩ := hfork.bytes
    have hname : NameLen y t.name.length := by
      cases hn with
      | inl hn => exact hn.2.same hlen hy
      | inr hn => omega
    obtain ⟨happ, hprio⟩ := hname.append (by omega)
    refine ⟨r, S', c, tc, hrun, hneg, hfork.unborn, hfork.record, hpid, ?_, fun k hk => ?_, t.name.length + 5, by omega, ?_⟩
    · rw [hc _ (by omega), hprio]
      exact hy _ (by omega)
    · rw [hc _ (by omega), strcat_fdTable (by rw [hname.strlen hlen]; exact hlen) (by omega)]
      exact hy _ (by omega)
    · rw [hc.name (by omega)]
      exact happ.2

/-! ## Generations -/

/-- What holds of the process whose turn it is. -/
structure Generation (S : Tasks) (l : Nat) : Prop where
  ready : Ready S
  name : ∃ t, S.vm.tasks S.vm.cur = some t ∧ t.name.length = l ∧ Spelled (S.pcb S.vm.cur) l

/-- A fork adds five characters. -/
theorem Generation.turn {S'' : Tasks} {t : TaskStruct} {intrExit : Nat} {r : Int} (h : Generation S l)
    (ht : S.vm.tasks S.vm.cur = some t) (hroom : ForkRoom S.vm t) (hrun : sysFork intrExit S = .ok (r, S'))
    (hturn : Turn S S' S'') : Generation S'' (l + 5) := by
  obtain ⟨t', ht', hlen, hn⟩ := h.name
  rw [ht] at ht'
  cases ht'
  subst hlen
  obtain ⟨hmem, hlt, hbirth⟩ := (sysFork_follows intrExit h.ready ht hn hroom).of_ok hrun
  have hneg : r ≠ -1 := by
    obtain ⟨r', s', hmem', hneg⟩ := h.ready.returns ht hroom hlt
    rw [hmem] at hmem'
    cases hmem'
    exact hneg
  obtain ⟨c, tc, hfork, -⟩ := hbirth hneg
  obtain ⟨tc', t'', htc', ht'', hname⟩ := hturn.record
  have hcc : S''.vm.cur = c := by
    by_contra hne
    rw [hfork.others _ hne, hturn.child] at htc'
    cases htc'
  have hbytes := hturn.name
  rw [hcc] at htc' ht'' hbytes
  rw [hfork.record] at htc'
  cases htc'
  obtain ⟨y, hy, hc⟩ := hfork.bytes
  refine ⟨hturn.ready, t'', by rw [hcc]; exact ht'', ?_, ?_⟩
  · rw [hname, hfork.name, List.length_append]
    rfl
  · rw [hcc]
    exact (hn.append hlt hy).congr fun j hj => (hbytes j hj).trans (hc.name hj)

theorem Line.generation {first : Tasks} {intrExit n : Nat} (h : Line intrExit first n S) (hfirst : Generation first l) :
    Generation S (l + 5 * n) := by
  induction h with
  | first => exact hfirst
  | next _ ht hroom hrun hturn ih => exact ih.turn ht hroom hrun hturn

/-- In a line whose forks find memory, a fork is as it should be exactly when the
first name had room for the suffixes of all generations up to it. -/
theorem line_forkOk_iff {first : Tasks} {t₀ t : TaskStruct} {intrExit n : Nat} (hfirst : Ready first)
    (ht₀ : first.vm.tasks first.vm.cur = some t₀) (hname : NameLen (first.pcb first.vm.cur) t₀.name.length)
    (hfits : t₀.name.length < 16) (hline : Line intrExit first n S) (ht : S.vm.tasks S.vm.cur = some t)
    (hroom : ForkRoom S.vm t) : ForkOk intrExit S ↔ t₀.name.length + 5 * (n + 1) ≤ 15 := by
  have hgen := hline.generation ⟨hfirst, t₀, ht₀, rfl, .inl ⟨hfits, hname⟩⟩
  obtain ⟨t', ht', hlen, hn⟩ := hgen.name
  rw [ht] at ht'
  cases ht'
  rw [← hlen] at hn
  rw [forkOk_iff hgen.ready ht hn hroom]
  omega

/-- What `init_thread` stores at `name`, at `priority` and `ticks`, and at `fd_table`.
mirrors src/thread/thread.c:117-146 -/
def initThread (name : List UInt8) (prio : UInt8) : Bytes :=
  let b := splice zeros nameAt (cString name) (name.length + 1)
  let b := splice b priorityAt (fun _ => prio) 2
  splice b fdTableAt (words fun k => if k < 3 then k else 4294967295) 32

/-- The priority of a process. -/
def defaultPrio : UInt8 := 31

theorem initThread_fds (name : List UInt8) (prio : UInt8) : FdOk (initThread name prio) := by
  intro fd h₁ h₂
  refine .inl ?_
  unfold fdEntry initThread
  rw [le32_splice_in (by omega) (by omega), show fdTableAt + 4 * fd - fdTableAt = 4 * fd by omega,
    le32_words_of_lt (by rw [if_neg (by omega)]; decide), if_neg (by omega)]
  rfl

theorem initThread_name {name : List UInt8} {prio : UInt8} (hz : 0 ∉ name) (hl : name.length < 16) :
    NameLen (initThread name prio) name.length := by
  have hn : nameAt = 12 := rfl
  have hp : priorityAt = 28 := rfl
  have hf : fdTableAt = 36 := rfl
  have hat : ∀ j, j ≤ name.length → initThread name prio (nameAt + j) = name[j]?.getD 0 := fun j hj => by
    unfold initThread
    rw [splice_out (by omega), splice_out (by omega), splice_in (by omega) (by omega), Nat.add_sub_cancel_left]
    exact List.getD_eq_getElem?_getD
  constructor
  · intro j hj
    rw [hat j (by omega), List.getElem?_eq_getElem hj, Option.getD_some]
    intro h0
    exact hz (h0 ▸ List.getElem_mem hj)
  · rw [hat _ (le_refl _), List.getElem?_eq_none (le_refl _)]
    rfl

/-- The first process of a machine with memory. -/
theorem first_ready (name : List UInt8) : ∃ S t, Ready S ∧ S.vm.tasks S.vm.cur = some t ∧ t.name = name ∧
    ForkRoom S.vm t ∧ S.pcb S.vm.cur = initThread name defaultPrio := by
  obtain ⟨L, s, p, t, hs, h, hname, -, hh⟩ := first_process (m := 7680) (n := 480) (k := 26) (a := 0) (e := 25) (l := 1)
    (by decide) (by decide) (fun _ => zeros) name (by decide) (by decide) (by decide) (by decide)
  have ht : s.tasks s.cur = some t := by rw [h.cur]; exact h.record
  have hframes : 25 + tableCnt (s.btmp t.userprogVaddr) ≤ s.kernelPool.poolBitmap.free := by
    have htables := h.sound.tables_stack h.record h.live h.page
    have hkernel := hh.kernel
    omega
  refine ⟨⟨s, fun _ => initThread name defaultPrio, []⟩, t, ⟨⟨_, fun _ => zeros, _, hs⟩, ⟨t, ht, h.live⟩, ?_, hh.small,
    initThread_fds name _, ?_⟩, ht, hname, ⟨Has.forkFinds hh, hframes, hh.pids⟩, rfl⟩
  · rw [h.sound.live]
    exact h.few
  · intro q hq
    cases hq with
    | inl hq => cases hq
    | inr hq =>
      rw [h.threadAllList, List.mem_singleton] at hq
      subst hq
      rw [h.record]
      simp

/-- `"init"` forks as it should. -/
theorem line_forkOk_init : ∃ S t, Ready S ∧ S.vm.tasks S.vm.cur = some t ∧ t.name = initName ∧ ForkOk 0 S := by
  obtain ⟨S, t, hready, ht, hname, hroom, hpcb⟩ := first_ready initName
  have hn : NameLen (S.pcb S.vm.cur) t.name.length := by
    rw [hpcb, hname]
    exact initThread_name (by decide) (by decide)
  exact ⟨S, t, hready, ht, hname, (line_forkOk_iff hready ht hn (by rw [hname]; decide) .first ht hroom).2
    (by rw [hname]; decide)⟩

/-- `"/bin/program"`. -/
def programName : List UInt8 := [47, 98, 105, 110, 47, 112, 114, 111, 103, 114, 97, 109]

/-- The name of the first child of `"/bin/program"` runs over into `priority`. -/
theorem fork_overflow : ∃ S t, Ready S ∧ S.vm.tasks S.vm.cur = some t ∧ t.name = programName ∧
    NameLen (S.pcb S.vm.cur) t.name.length ∧ t.name.length < 16 ∧ ForkRoom S.vm t ∧ ¬ ForkOk 0 S := by
  obtain ⟨S, t, hready, ht, hname, hroom, hpcb⟩ := first_ready programName
  have hn : NameLen (S.pcb S.vm.cur) t.name.length := by
    rw [hpcb, hname]
    exact initThread_name (by decide) (by decide)
  have hfits : t.name.length < 16 := by
    rw [hname]
    decide
  refine ⟨S, t, hready, ht, hname, hn, hfits, hroom, fun hok => ?_⟩
  have hshort := (forkOk_iff hready ht (.inl ⟨hfits, hn⟩) hroom).1 hok
  rw [hname] at hshort
  exact absurd hshort (by decide)

end

end Enix.Userprog
