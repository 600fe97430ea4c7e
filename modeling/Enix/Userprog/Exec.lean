import Enix.Shell.Fifo
import Enix.Memory.KernelStore
import Enix.Userprog.ForkName
import Enix.Userprog.Whole

/-!
# The loader (`userprog/exec.c`)

`load` opens an ELF file, reads its header and then, one after the other, the
program headers and the segments that are to be loaded. A segment goes to the
address it asks for: the pages that are not there are taken one by one, and
`sys_read` copies the bytes to them. What `sys_Iseek` and this `sys_read` return
is not looked at.

The members of the two headers that nothing reads are left out. The buffers of
`sys_read` are the file system's, apart from the pages of the process.
-/
set_option autoImplicit false

namespace Enix.Userprog
open Enix.Core Enix.Kernel Enix.Memory Enix.Fs

/-- A little-endian `Elf32_Half`. -/
def le16 (b : Bytes) (o : Nat) : Nat := (b o).toNat + 256 * (b (o + 1)).toNat

/-- mirrors src/userprog/exec.c:13-30 (`Elf32_Ehdr`) -/
structure Ehdr where
  eIdent : List UInt8
  eType : Nat
  eMachine : Nat
  eVersion : Nat
  eEntry : Nat
  ePhoff : Nat
  ePhentsize : Nat
  ePhnum : Nat
  deriving DecidableEq, Repr

/-- `sizeof(Elf32_Ehdr)`. -/
def ehdrSize : Nat := 52

/-- The header in a buffer; of `e_ident` the bytes that are checked. -/
def Ehdr.ofBytes (b : Bytes) : Ehdr where
  eIdent := slice b 0 7
  eType := le16 b 16
  eMachine := le16 b 18
  eVersion := le32 b 20
  eEntry := le32 b 24
  ePhoff := le32 b 28
  ePhentsize := le16 b 42
  ePhnum := le16 b 44

/-- mirrors src/userprog/exec.c:33-43 (`Elf32_Phdr`) -/
structure Phdr where
  pType : Nat
  pOffset : Nat
  pVaddr : Nat
  pFilesz : Nat
  pMemsz : Nat
  deriving DecidableEq, Repr

/-- `sizeof(Elf32_Phdr)`. -/
def phdrSize : Nat := 32

def Phdr.ofBytes (b : Bytes) : Phdr where
  pType := le32 b 0
  pOffset := le32 b 4
  pVaddr := le32 b 8
  pFilesz := le32 b 16
  pMemsz := le32 b 20

/-- `PT_LOAD`. -/
def ptLoad : Nat := 1

/-- The header check.
mirrors src/userprog/exec.c:131-145 -/
def Ehdr.accepted (h : Ehdr) : Bool :=
  h.eIdent = [0x7f, 0x45, 0x4c, 0x46, 1, 1, 1] ∧ h.eType = 2 ∧ h.eMachine = 3 ∧ h.eVersion = 1 ∧
    h.ePhnum ≤ 1024 ∧ h.ePhentsize = phdrSize

/-- `DIV_ROUND_UP`, in 32 bits. -/
def divRoundUp (x step : Nat) : Nat := (x + step - 1) % 4294967296 / step

/-- mirrors src/userprog/exec.c:70-85 -/
def occupyPages (vaddr filesz : Nat) : Nat :=
  let sizeInFirstPage := 4096 - vaddr % 4096
  if sizeInFirstPage < filesz then divRoundUp (filesz - sizeInFirstPage) 4096 + 1 else 1

/-- The loop over the pages from `v` on; NULL from `get_a_page` ends it.
mirrors src/userprog/exec.c:87-101 -/
def occupyLoop : (n v : Nat) → M Bool
  | 0, _ => pure true
  | n + 1, v => do
    if ← Cmd.read (fun s => present (s.pde v) && present (s.pte v)) then
      occupyLoop n ((v + 1) % 0x100000)
    else
      match ← getAPage .user v with
      | none => pure false
      | some _ => occupyLoop n ((v + 1) % 0x100000)

/-- `sys_read(fd, (void *)vaddr, count)`: what has come is stored in the memory of
the process. In the kernel's half it would replace the kernel. -/
def readInto (cur : Pid) (fd : Int) (vaddr count : Nat) : W Unit := do
  let (ret, buf) ← onFs (sysRead zeros cur fd zeros count)
  Cmd.guard (vaddr + ret.toNat ≤ 4096 * kernelBase) (.vm .ub)
  onVm (memcpyUser vaddr (slice buf 0 ret.toNat))

/-- SEEK_SET; the offset is passed as an `int32_t`. -/
def seekTo (cur : Pid) (fd : Int) (offset : Nat) : W Unit := do
  let _ ← onFs (sysIseek cur fd (int32 offset) 1)
  pure ()

/-- mirrors src/userprog/exec.c:68-105 (`segment_load`) -/
def segmentLoad (cur : Pid) (fd : Int) (offset filesz vaddr : Nat) : W Bool := do
  if ← onVm (occupyLoop (occupyPages vaddr filesz) (vaddr / 4096)) then
    seekTo cur fd offset
    readInto cur fd vaddr filesz
    pure true
  else pure false

/-- The loop over the program headers, `n` of them from `offset` on.
mirrors src/userprog/exec.c:157-183 -/
def loadHeaders (cur : Pid) (fd : Int) (size : Nat) : (n offset : Nat) → W Bool
  | 0, _ => pure true
  | n + 1, offset => do
    seekTo cur fd offset
    let (ret, buf) ← onFs (sysRead zeros cur fd zeros size)
    if ret ≠ size then pure false
    else
      let h := Phdr.ofBytes buf
      if h.pType = ptLoad then
        if ← segmentLoad cur fd h.pOffset h.pFilesz h.pVaddr then
          loadHeaders cur fd size n ((offset + size) % 4294967296)
        else pure false
      else loadHeaders cur fd size n ((offset + size) % 4294967296)

/-- The steps with the file open.
mirrors src/userprog/exec.c:124-187 -/
def loadOpen (cur : Pid) (fd : Int) : W Int := do
  let (ret, buf) ← onFs (sysRead zeros cur fd zeros ehdrSize)
  if ret ≠ ehdrSize then pure (-1)
  else
    let h := Ehdr.ofBytes buf
    if h.accepted then
      if ← loadHeaders cur fd h.ePhentsize h.ePhnum h.ePhoff then pure (int32 h.eEntry) else pure (-1)
    else pure (-1)

/-- mirrors src/userprog/exec.c:113-192 (`load`) -/
def load (pathname : Str) : W Int := do
  let cur ← running
  let fd ← onFs (sysOpen cur pathname oRdonly)
  if fd = -1 then pure (-1)
  else
    let ret ← loadOpen cur fd
    let _ ← onFs (sysClose cur fd)
    pure ret

end Enix.Userprog
