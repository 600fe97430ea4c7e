import Enix.Memory.FirstFit
import Enix.Memory.ForkFails

/-!
# Counters and bitmaps over runs

What the invariant says of every state that is reached while each `sys_fork`
finds room for the child's bitmap:

* `frames_counted`: `mem` counts the references to each frame of the pools, a
  frame is marked exactly when it is counted, `palloc` takes frames without a
  reference, and no call stops at the ASSERT of `free_a_phy_page`.
* `bitmaps_agree`: a bit of a process's bitmap is set exactly when its page is
  there, so `sys_fork` stops neither at the ASSERT of `Modify_PTE` nor at that
  of `page_table_add`.

`Shared`: a fork without room. Afterwards parent and child have one bitmap, and
a page that the parent gets is marked for both (`bitmaps_disagree`); when both
exit, the pages of the bitmap are given back twice (`frames_freed_twice`).
-/
set_option autoImplicit false

namespace Enix.Memory
open Enix.Core Enix.Kernel Function

namespace Vm

/-- `mem` counts the present entries that refer to a frame; its bit is set
exactly when it is counted. -/
def counted (s : Vm) : Prop := ∀ f, s.Pooled f →
  s.mem f = refCount (refs s.spaces s) f ∧ (s.frameBit f = true ↔ 0 < s.mem f)

end Vm

/-- The running process has one page, and a child `c` with its bitmap. -/
structure Shared (L : Spaces) (s₀ s : Vm) (p c d : Nat) (t tc : TaskStruct) : Prop extends
    Sharing L s₀ s p c d t tc where
  reach : Reachable Call.Legal s
  before : Sound L s₀
  runsFirst : s₀.cur = p
  parentRecord : s₀.tasks p = some t
  parentLive : t.live = true
  page : ∀ v, v ≠ userStack3 → entries L s₀ (.pte p v) = none
  parentPid : t.parentPid ≠ -1 ∧ t.parentPid ≠ t.pid ∧ t.pid ≠ -1
  grandparent : s.pid2thread t.parentPid ≠ none
  left : Has s.tasks 1 1 0 0 s

section
variable {L : Spaces} {s s₀ s₁ s' : Vm} {t tc u : TaskStruct} {r : Ref} {call : Call} {c d f i k n p q v w : Nat}

/-! ## Runs with room -/

theorem Sharing.shares (h : Sharing L s₀ s p c d t tc) : tc.userprogVaddr = t.userprogVaddr := by
  obtain ⟨pid, -, hmade⟩ := h.made
  rw [hmade]
  rfl

theorem Sharing.childLive (h : Sharing L s₀ s p c d t tc) : tc.live = true := by
  obtain ⟨pid, -, hmade⟩ := h.made
  have hne : tc.pgdir ≠ 0 := fun h0 => by
    have hheap := h.dir.1
    rw [h0] at hheap
    exact absurd hheap (by decide)
  have hst : tc.status = .ready := by
    rw [hmade]
    rfl
  unfold TaskStruct.live
  rw [hst]
  simp [hne]

/-- The parent could exit. -/
theorem Shared.exiting (h : Shared L s₀ s p c d t tc) : Exiting (update L c (some d)) s t := by
  have hrun := h.runsFirst
  have hcur : s.cur = p := h.cur.trans hrun
  have he := h.before.exiting (by rw [hrun]; exact h.parentRecord) h.parentLive
  have hspace := he.space
  obtain ⟨hheap, hdir⟩ := he.dir
  obtain ⟨w, hw, hwf⟩ := refs_eq_some.1 hdir
  rw [hrun] at hspace
  refine ⟨h.frames, h.kernelBits, ?_, ?_, ⟨hheap, ?_⟩, hcur ▸ h.user⟩
  · rw [hcur, h.others p (Ne.symm h.ne)]
    exact h.parentRecord
  · rw [hcur, update_of_ne (Ne.symm h.ne), h.cr3]
    exact hspace
  · rw [h.cr3]
    exact refs_eq_some.2 ⟨w, h.kernel _ w hw, hwf⟩

theorem Shared.inProcess (h : Shared L s₀ s p c d t tc) : s.inProcess := ⟨t, h.exiting.record, h.parentLive⟩

theorem Shared.spaces (h : Shared L s₀ s p c d t tc) : s.spaces = update L c (some d) :=
  h.before.spaces_add h.kernel h.others h.record h.childLive h.dir.2

/-- Only the page of the stack is there. -/
theorem Shared.fits (h : Shared L s₀ s p c d t tc) : Fits (s.btmp t.userprogVaddr) 1 := by
  refine ⟨le_refl 1, 0, by decide, fun j h1 h2 => ?_⟩
  have hj : j = 0 := by omega
  subst hj
  by_contra hb
  have hpage := (h.user.bit 0 (by decide)).1 (by simpa using hb)
  rw [h.parent, refs_eq_none.2 (h.page (userVaddrStart + 0) (by decide))] at hpage
  exact hpage rfl

/-- The frame that an entry of the kernel's half names, whether or not it is present. -/
def named (v : Nat) (s : Vm) : Nat := s.kernelPte v / 4096

end

end Enix.Memory
