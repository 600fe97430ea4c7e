import Enix.Fs.InodeTable
import Enix.Fs.File

/-!
# An open file

`Opened s i p x`: slot `i` of the file table refers to the in-memory inode
`x` at `p`. Through such a slot `file->fd_inode` is read and changed.
-/
set_option autoImplicit false

namespace Enix.Fs
open Enix.Core Enix.Kernel

/-- Slot `i` of the file table refers to the inode `x` at `p`. -/
structure Opened (s : Mem) (i : Nat) (p : Ptr) (x : Inode) : Prop where
  slot : (s.fileTable i).fdInode = some p
  inode : s.inodes p = some x

/-- The memory after an assignment to a slot. -/
def Mem.setFile (s : Mem) (i : Nat) (f : File) : Mem := { s with fileTable := upd s.fileTable i f }

@[simp] theorem Mem.setInode_curPart (s : Mem) (p : Ptr) (x : Inode) :
    (Mem.setInode s p x).curPart = s.curPart := rfl
@[simp] theorem Mem.setFile_curPart (s : Mem) (i : Nat) (f : File) :
    (Mem.setFile s i f).curPart = s.curPart := rfl
section
variable {s : Mem} {d : Dev} {i : Nat} {p : Ptr} {x : Inode}

theorem exec_derefFd (h : Opened s i p x) : exec device (derefFd i) s d = .ok (x, s, d) := by
  unfold derefFd fdInode
  simp only [bind_assoc]
  rw [exec_readM_bind, h.slot]
  exact exec_derefInode h.inode

theorem exec_modifyFd (f : Inode → Inode) (h : Opened s i p x) :
    exec device (modifyFd i f) s d = .ok ((), Mem.setInode s p (f x), d) := by
  unfold modifyFd fdInode
  simp only [bind_assoc]
  rw [exec_readM_bind, h.slot]
  exact exec_modifyInode f h.inode

theorem exec_modifyFile (f : File → File) :
    exec device (modifyFile i f) s d = .ok ((), Mem.setFile s i (f (s.fileTable i)), d) := rfl

theorem Opened.setInode (h : Opened s i p x) (y : Inode) : Opened (Mem.setInode s p y) i p y :=
  ⟨h.slot, upd_self _ _ _⟩

end

end Enix.Fs
