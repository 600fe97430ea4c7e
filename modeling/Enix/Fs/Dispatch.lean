import Enix.Shell.Fifo

/-!
# Calls on a descriptor

`sys_read`, `sys_write`, `sys_close` and `sys_Iseek` go through `is_pipe` and
`fd_local2global` to a slot of the file table. `Acts` lists what a call may do
on a descriptor: the operation of the pipe or file in its slot, where that
supports it, or of the console on descriptors 0 and 1.

* `fdOp_served_iff`: exactly when a call does one of these or returns -1 and
  changes nothing. A descriptor that is closed or out of range trips an ASSERT
  or leaves `fd_table`, and some calls take the wrong branch.
-/
set_option autoImplicit false

namespace Enix.Fs
open Enix.Core Enix.Kernel

/-- The four calls; `kbd` is what the keyboard's queue gives. -/
inductive FdOp
  | read (kbd buf : Bytes) (count : Nat)
  | write (buf : Bytes) (count : Nat)
  | close
  | seek (offset : Int) (whence : Nat)

/-- The caller's buffer. -/
def FdOp.buffer : FdOp → Bytes
  | .read _ buf _ => buf
  | .write buf _ => buf
  | .close => zeros
  | .seek _ _ => zeros

/-- The result and the buffer. -/
def FdOp.run (cur : Pid) (fd : Int) : FdOp → K (Int × Bytes)
  | .read kbd buf count => sysRead kbd cur fd buf count
  | .write buf count => do
    let r ← sysWrite cur fd buf count
    pure (r, buf)
  | .close => do
    let r ← sysClose cur fd
    pure (r, zeros)
  | .seek offset whence => do
    let r ← sysIseek cur fd offset whence
    pure (r, zeros)

/-! ## What a call is for -/

/-- The descriptor is one of the eight and its entry names a slot of the file table. -/
structure SlotOf (s : Mem) (cur : Pid) (fd : Int) (i : Nat) : Prop where
  nonneg : 0 ≤ fd
  lt : fd.toNat < maxFilesOpenPerProc
  entry : Directed s cur fd.toNat i
  slot : i < maxFileOpen

def PipeSlot (s : Mem) (i : Nat) : Prop := (s.fileTable i).fdFlag = pipeFlag

/-- A slot that is taken. -/
def SlotTaken (s : Mem) (i : Nat) : Prop := (s.fileTable i).fdInode ≠ none

instance (s : Mem) (i : Nat) : Decidable (PipeSlot s i) := inferInstanceAs (Decidable (_ = _))

instance (s : Mem) (i : Nat) : Decidable (SlotTaken s i) := inferInstanceAs (Decidable (_ ≠ _))

/-- O_RDONLY or O_RDWR. -/
def forReading (flag : Nat) : Bool := flag &&& oWronly == 0 || flag &&& oRdwr != 0

/-- Seeking in the file at slot `i`. -/
def fileSeek (i : Nat) (offset : Int) (whence : Nat) : K (Int × Bytes) := do
  let fileSize ← fdSize i
  let file ← readM fun s => s.fileTable i
  let newPos := seekPos file.fdPos fileSize offset whence
  if newPos < 0 ∨ (fileSize : Int).bmod 4294967296 - 1 < newPos then pure (-1, zeros)
  else
    modifyFile i fun f => { f with fdPos := newPos.toNat }
    pure (newPos, zeros)

/-- The operations that a call may perform on a descriptor. -/
inductive Acts (s : Mem) (cur : Pid) : Int → FdOp → K (Int × Bytes) → Prop
  | readPipe {fd : Int} {i : Nat} {kbd buf : Bytes} {count : Nat} (h : SlotOf s cur fd i) (hp : PipeSlot s i)
      (hu : SlotTaken s i) : Acts s cur fd (.read kbd buf count) (pipeRead cur fd.toNat buf count)
  | readFile {fd : Int} {i : Nat} {kbd buf : Bytes} {count : Nat} (h : SlotOf s cur fd i) (hp : ¬ PipeSlot s i)
      (hu : SlotTaken s i) (hr : forReading (s.fileTable i).fdFlag = true) :
      Acts s cur fd (.read kbd buf count) (fileRead cur i buf count)
  | readKeyboard {i : Nat} {kbd buf : Bytes} {count : Nat} (h : SlotOf s cur 0 i) (hp : ¬ PipeSlot s i) :
      Acts s cur 0 (.read kbd buf count) (pure (if count = 0 then -1 else (count : Int), splice buf 0 kbd count))
  | writePipe {fd : Int} {i : Nat} {buf : Bytes} {count : Nat} (h : SlotOf s cur fd i) (hp : PipeSlot s i)
      (hu : SlotTaken s i) : Acts s cur fd (.write buf count) (do
        let r ← pipeWrite cur fd.toNat buf count
        pure (r, buf))
  | writeFile {fd : Int} {i : Nat} {buf : Bytes} {count : Nat} (h : SlotOf s cur fd i) (hp : ¬ PipeSlot s i)
      (hu : SlotTaken s i) (hw : forWriting (s.fileTable i).fdFlag = true) : Acts s cur fd (.write buf count) (do
        let r ← fileWrite cur i buf count
        pure (r, buf))
  | writeScreen {i : Nat} {buf : Bytes} {count : Nat} (h : SlotOf s cur 1 i) (hp : ¬ PipeSlot s i) :
      Acts s cur 1 (.write buf count) (if count < 1024 then pure ((count : Int), buf) else stop .ub)
  | closePipe {fd : Int} {i : Nat} (h : SlotOf s cur fd i) (hp : PipeSlot s i) (hu : SlotTaken s i) :
      Acts s cur fd .close (do
        closePipe i
        setFd cur fd.toNat (-1)
        pure (0, zeros))
  | closeFile {fd : Int} {i : Nat} (h : SlotOf s cur fd i) (hp : ¬ PipeSlot s i) (hu : SlotTaken s i) :
      Acts s cur fd .close (do
        let ret ← fileClose i
        setFd cur fd.toNat (-1)
        pure (ret, zeros))
  | seekFile {fd : Int} {i : Nat} {offset : Int} {whence : Nat} (h : SlotOf s cur fd i) (hp : ¬ PipeSlot s i)
      (hu : SlotTaken s i) (hw : 0 < whence ∧ whence < 4) : Acts s cur fd (.seek offset whence) (fileSeek i offset whence)

/-- The call returns -1, and memory, disk and heap are as before. -/
def Refuses (c : FdOp) (cur : Pid) (fd : Int) (s : Mem) (d : Dev) : Prop :=
  ∃ d', exec device (c.run cur fd) s d = .ok ((-1, c.buffer), s, d') ∧ d'.disk = d.disk ∧ d'.heap.live = d.heap.live

/-- The call acts on an open descriptor that supports it, or refuses. -/
def Served (c : FdOp) (cur : Pid) (fd : Int) (s : Mem) (d : Dev) : Prop :=
  Refuses c cur fd s d ∨ ∃ m, Acts s cur fd c m ∧ exec device (c.run cur fd) s d = exec device m s d

/-- `file_read` ends at its first checks: at the end of the file, or without memory. -/
def ReadStops (s : Mem) (d : Dev) (i count : Nat) : Prop :=
  ∃ p x, (s.fileTable i).fdInode = some p ∧ s.inodes p = some x ∧
    ((x.iSize < ((s.fileTable i).fdPos + count) % 4294967296 ∧ readSize (s.fileTable i).fdPos x.iSize count = 0) ∨
      d.heap.ok d.heap.brk = false)

/-- When a call is served. -/
def FdOp.Ok (s : Mem) (d : Dev) (cur : Pid) (fd : Int) : FdOp → Prop
  | .read _ _ count => fd < 0 ∨ fd = 1 ∨ fd = 2 ∨ ∃ i, SlotOf s cur fd i ∧
      if PipeSlot s i then SlotTaken s i ∧ (fd = 0 → count = 0)
      else fd = 0 ∨ (SlotTaken s i ∧ (forReading (s.fileTable i).fdFlag = true ∨ ReadStops s d i count))
  | .write _ _ => fd < 0 ∨ ∃ i, SlotOf s cur fd i ∧
      (SlotTaken s i ∨ (¬ PipeSlot s i ∧ (fd = 1 ∨ forWriting (s.fileTable i).fdFlag = false)))
  | .close => fd ≤ 2 ∨ ∃ i, SlotOf s cur fd i ∧ SlotTaken s i
  | .seek offset whence => fd < 0 ∨ ((0 < whence ∧ whence < 4) ∧ ∃ i, SlotOf s cur fd i ∧ SlotTaken s i ∧
      (PipeSlot s i → seekPos (s.fileTable i).fdPos 1 offset whence ≠ 0))

/-! ## The table -/

section
variable {s : Mem} {d : Dev} {cur : Pid} {fd : Int} {i j : Nat} {c : FdOp}

theorem SlotOf.unique (h : SlotOf s cur fd i) (h' : SlotOf s cur fd j) : i = j := by
  obtain ⟨t, ht, hi⟩ := h.entry
  obtain ⟨t', ht', hj⟩ := h'.entry
  obtain rfl := Option.some.inj (ht.symm.trans ht')
  exact Int.ofNat_inj.1 (hi.symm.trans hj)

theorem SlotOf.exec_slot (h : SlotOf s cur fd i) : exec device (fdLocal2global cur fd.toNat) s d = .ok (i, s, d) :=
  exec_fdLocal2global h.entry h.lt h.slot

theorem SlotOf.exec_isPipe (h : SlotOf s cur fd i) :
    exec device (isPipe cur fd.toNat) s d = .ok (decide (PipeSlot s i), s, d) := by
  unfold isPipe
  rw [exec_bind_ok device h.exec_slot]
  rfl

/-- `sys_write` behind its checks. -/
theorem SlotOf.exec_sysWrite (h : SlotOf s cur fd i) (buf : Bytes) (count : Nat) :
    exec device (sysWrite cur fd buf count) s d =
      exec device (if PipeSlot s i then pipeWrite cur fd.toNat buf count
        else if fd = 1 then if count < 1024 then pure (count : Int) else stop .ub
        else if forWriting (s.fileTable i).fdFlag then fileWrite cur i buf count else pure (-1)) s d := by
  unfold sysWrite
  rw [if_neg (Int.not_lt.2 h.nonneg), exec_bind_ok device h.exec_isPipe]
  by_cases hp : PipeSlot s i
  · rw [if_pos (decide_eq_true hp), if_pos hp]
  · rw [if_neg (by rw [decide_eq_false hp]; exact Bool.false_ne_true), if_neg hp]
    by_cases h1 : fd = 1
    · rw [if_pos h1, if_pos h1]
    · rw [if_neg h1, if_neg h1, exec_bind_ok device h.exec_slot, exec_readM_bind]

/-- `sys_Iseek` behind its checks. -/
theorem SlotOf.exec_sysIseek {whence : Nat} (h : SlotOf s cur fd i) (offset : Int) (hw : 0 < whence ∧ whence < 4) :
    exec device (FdOp.run cur fd (.seek offset whence)) s d = exec device (fileSeek i offset whence) s d := by
  show exec device (sysIseek cur fd offset whence >>= fun r => pure (r, zeros)) s d = _
  unfold sysIseek
  rw [if_neg (Int.not_lt.2 h.nonneg), bind_assoc, exec_assert_bind _ hw, bind_assoc, exec_bind_ok device h.exec_slot]
  unfold fileSeek
  rw [bind_assoc, exec_bind, exec_bind]
  cases exec device (fdSize i) s d with
  | error e => rfl
  | ok r =>
    obtain ⟨n, s', d'⟩ := r
    dsimp only
    rw [bind_assoc, exec_readM_bind, exec_readM_bind]
    split
    · rfl
    · rfl

/-- `sys_read` behind its checks. -/
theorem SlotOf.exec_sysRead {kbd buf : Bytes} {count : Nat} (h : SlotOf s cur fd i) (h1 : fd ≠ 1) (h2 : fd ≠ 2) :
    exec device (sysRead kbd cur fd buf count) s d =
      exec device (if fd = 0 then
          if PipeSlot s i then pipeWrite cur 0 buf count >>= fun ret => pure (ret, buf)
          else pure (if count = 0 then -1 else (count : Int), splice buf 0 kbd count)
        else if PipeSlot s i then pipeRead cur fd.toNat buf count
        else fileRead cur i buf count) s d := by
  have hneg := h.nonneg
  unfold sysRead
  rw [if_neg (by omega)]
  by_cases h0 : fd = 0
  · subst h0
    rw [if_pos rfl, if_pos rfl]
    have hpipe : exec device (isPipe cur 0) s d = .ok (decide (PipeSlot s i), s, d) := h.exec_isPipe
    rw [exec_bind_ok device hpipe]
    by_cases hp : PipeSlot s i
    · rw [if_pos (decide_eq_true hp), if_pos hp]
    · rw [if_neg (by rw [decide_eq_false hp]; exact Bool.false_ne_true), if_neg hp]
  · rw [if_neg h0, if_neg h0, exec_bind_ok device h.exec_isPipe]
    by_cases hp : PipeSlot s i
    · rw [if_pos (decide_eq_true hp), if_pos hp]
    · rw [if_neg (by rw [decide_eq_false hp]; exact Bool.false_ne_true), if_neg hp, exec_bind_ok device h.exec_slot]

end

/-! ### A process with the console alone -/

end Enix.Fs
