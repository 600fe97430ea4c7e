import Enix.Memory.UserBitmap

/-!
# The invariant of the address spaces

`Sound L s` holds between two calls: `L` are the live address spaces, the books
are even, every process owns its pages of the kernel alone, its bitmap agrees
with its page tables, and an entry that allows stores is the only reference to
its frame.

* `Sound.carry`: a call that leaves the tasks alone keeps it, if it does so for
  the processes whose pages it changes.
* `Sound.part_frame`: the frames of the pages that a process owns.
-/
set_option autoImplicit false

namespace Enix.Memory
open Enix.Core Enix.Kernel Function

/-- What a process owns in the kernel: its `task_struct`, its directory, page
`k` of its bitmap. -/
inductive Part where
  | pcb | dir | map (k : Nat)
  deriving DecidableEq

/-- Its pages of the user's half are there: it has some, and has not ended. -/
def TaskStruct.live (t : TaskStruct) : Bool := t.pgdir ≠ 0 && t.status ≠ .hanging

def TaskStruct.part (t : TaskStruct) (p : Nat) : Part → Option Nat
  | .pcb => some p
  | .dir => if t.pgdir = 0 then none else some t.pgdir
  | .map k => if t.live = true ∧ k < bitmapPgCnt then some (t.userprogVaddr.bits + k) else none

namespace Vm

/-- The page of the kernel that is part `a` of process `p`. -/
def part (s : Vm) (p : Nat) (a : Part) : Option Nat := (s.tasks p).bind fun t => t.part p a

/-- The live address spaces. -/
def spaces (s : Vm) : Spaces := fun p =>
  (s.tasks p).bind fun t => if t.live then some (s.kernelPte t.pgdir / 4096) else none

end Vm

/-- A call that has changed the pages of the processes in `A` only: the tasks
and what they own in the kernel are the same. -/
structure Effect (L : Spaces) (s s' : Vm) (A : Nat → Prop) : Prop where
  rest : Rest s s'
  room : s'.kernelVaddr.size = s.kernelVaddr.size
  base : s'.kernelPte kernelBase = s.kernelPte kernelBase
  part : ∀ p a v f, s.part p a = some v → refs L s (.kernel v) = some f → refs L s' (.kernel v) = some f
  btmp : ∀ p k v f, ¬ A p → s.part p (.map k) = some v → refs L s (.kernel v) = some f → s'.phys f = s.phys f
  page : ∀ p v, ¬ A p → entries L s' (.pte p v) = entries L s (.pte p v)

/-- An entry that allows stores is the only reference to its frame. -/
def Cow (L : Spaces) (s : Vm) : Prop := ∀ p v w, entries L s (.pte p v) = some w → writable w = true →
  ∀ r, refs L s r = some (w / 4096) → r = .pte p v

/-- How many address spaces are live. -/
noncomputable def alive (L : Spaces) : Nat := Set.ncard {p | L p ≠ none}

structure Sound (L : Spaces) (s : Vm) : Prop where
  frames : Frames L quits s
  few : alive L < 256
  kernelBits : KernelBits s
  room : s.kernelVaddr.size ≤ 0x3FF00
  top : present (s.kernelPte kernelBase) = true
  live : s.spaces = L
  mapped : ∀ p a v, s.part p a = some v →
    p = mainThread ∧ a = .pcb ∨ kHeapStart ≤ v ∧ present (s.kernelPte v) = true
  main : ∀ t, s.tasks mainThread = some t → t.pgdir = 0
  own : ∀ p q a b v, s.part p a = some v → s.part q b = some v → p = q ∧ a = b
  user : ∀ p t, s.tasks p = some t → t.live = true → UserSpace L s p t.userprogVaddr
  cow : Cow L s
  inUse : ∀ t, s.tasks s.cur = some t → t.live = true → L s.cur = some s.cr3

section
variable {L L' : Spaces} {due : Nat → Int} {s s₁ s' : Vm} {u : VirtualAddr} {t : TaskStruct} {r : Ref}
  {a b : Part} {f g p q i j v w n k d : Nat}

/-! ## Live address spaces -/

/-- Directories are referred to, so there are finitely many. -/
theorem RefsOk.finite_live {kernel pooled : Nat → Prop} {ref : Ref → Option Nat}
    (h : RefsOk kernel pooled L ref) : Set.Finite {p | L p ≠ none} := by
  have himage : Set.Finite ((fun r => (ref r).getD 0) '' {r | ref r ≠ none}) := h.fin.image _
  refine Set.Finite.of_finite_image (f := fun p => (L p).getD 0) (himage.subset ?_) ?_
  · rintro d ⟨p, hp, rfl⟩
    obtain ⟨d, hd⟩ := Option.ne_none_iff_exists'.1 hp
    obtain ⟨v, -, hv⟩ := h.dir p d hd
    exact ⟨.kernel v, by simp [hv], by simp [hv, hd]⟩
  · intro p hp q hq he
    obtain ⟨d, hd⟩ := Option.ne_none_iff_exists'.1 hp
    obtain ⟨e, hq'⟩ := Option.ne_none_iff_exists'.1 hq
    simp only [hd, hq', Option.getD_some] at he
    exact h.inj p q d hd (he ▸ hq')

/-- A page is shared by at most as many processes as there are. -/
theorem Frames.sharers (h : Frames L due s) (hr : refs L s (.pte p v) = some f) :
    refCount (refs L s) f ≤ alive L := by
  have hkey : ∀ r, refs L s r = some f → ∃ q, r = .pte q v := fun r hr' => h.ok.page_only h.pooled_base hr hr'
  refine refCount_le h.ok.finite_live (fun r => match r with | .pte q _ => q | _ => 0) (fun r hr' => ?_)
    fun r r' h₁ h₂ he => ?_
  · obtain ⟨q, rfl⟩ := hkey r hr'
    obtain ⟨w, hw, -⟩ := refs_eq_some.1 hr'
    obtain ⟨d, hd, -⟩ := pde_of_pte hw
    simp [hd]
  · obtain ⟨q, rfl⟩ := hkey r h₁
    obtain ⟨q', rfl⟩ := hkey r' h₂
    simp only at he
    rw [he]

/-! ## Parts -/

theorem spaces_eq_some : s.spaces p = some d ↔
    ∃ t, s.tasks p = some t ∧ t.live = true ∧ s.kernelPte t.pgdir / 4096 = d := by
  unfold Vm.spaces
  cases s.tasks p with
  | none => simp
  | some t => simp

theorem TaskStruct.live_pgdir (h : t.live = true) : t.pgdir ≠ 0 := by
  unfold TaskStruct.live at h
  simp only [ne_eq, Bool.and_eq_true, decide_eq_true_eq] at h
  exact h.1

theorem part_pcb (ht : s.tasks p = some t) : s.part p .pcb = some p := by
  unfold Vm.part
  rw [ht]
  rfl

theorem part_dir (ht : s.tasks p = some t) (hd : t.pgdir ≠ 0) : s.part p .dir = some t.pgdir := by
  unfold Vm.part
  rw [ht]
  simp only [Option.bind_some, TaskStruct.part, if_neg hd]

theorem part_map (ht : s.tasks p = some t) (hl : t.live = true) (hk : k < bitmapPgCnt) :
    s.part p (.map k) = some (t.userprogVaddr.bits + k) := by
  unfold Vm.part
  rw [ht]
  simp only [Option.bind_some, TaskStruct.part, if_pos (And.intro hl hk)]

theorem part_congr (h : s'.tasks = s.tasks) : s'.part p a = s.part p a := by
  unfold Vm.part
  rw [h]

/-- The pages that a process owns are mapped. -/
theorem Sound.part_ref (h : Sound L s) (hp : s.part p a = some v) (hm : ¬ (p = mainThread ∧ a = .pcb)) :
    kHeapStart ≤ v ∧ ∃ f, refs L s (.kernel v) = some f := by
  rcases h.mapped p a v hp with hmain | ⟨hv, hpr⟩
  · exact absurd hmain hm
  · exact ⟨hv, _, refs_kernel.2 ⟨hpr, rfl⟩⟩

/-- Every part of a live process is in the heap of the kernel. -/
theorem Sound.live_ref (h : Sound L s) (ht : s.tasks p = some t) (hl : t.live = true)
    (hp : s.part p a = some v) : kHeapStart ≤ v ∧ ∃ f, refs L s (.kernel v) = some f := by
  refine h.part_ref hp ?_
  rintro ⟨rfl, -⟩
  exact TaskStruct.live_pgdir hl (h.main t ht)

/-- The directory of a live process is the frame of a page that it owns. -/
theorem Sound.dir_ref (h : Sound L s) (hL : L p = some d) : ∃ t, s.tasks p = some t ∧ t.live = true ∧
    kHeapStart ≤ t.pgdir ∧ refs L s (.kernel t.pgdir) = some d := by
  rw [← h.live] at hL
  obtain ⟨t, ht, hl, hd⟩ := spaces_eq_some.1 hL
  have hp := part_dir ht (TaskStruct.live_pgdir hl)
  rcases h.mapped p .dir _ hp with ⟨-, hc⟩ | ⟨hv, hpr⟩
  · cases hc
  · exact ⟨t, ht, hl, hv, refs_kernel.2 ⟨hpr, hd⟩⟩

theorem Sound.live_space (h : Sound L s) (ht : s.tasks p = some t) (hl : t.live = true) :
    ∃ d, L p = some d := by
  rw [← h.live]
  exact ⟨_, spaces_eq_some.2 ⟨t, ht, hl, rfl⟩⟩

/-- Only the directory of a live process is its frame. -/
theorem Sound.part_frame (h : Sound L s) (hp : s.part p a = some v) (hf : refs L s (.kernel v) = some f) (hq : L q = some f) : p = q ∧ a = .dir := by
  obtain ⟨t, ht, hl, hv, hd⟩ := h.dir_ref hq
  have hk := h.frames.ok.kernel_only h.frames.kernel_base hv hd hf
  cases hk
  exact h.own p q a .dir _ hp (part_dir ht (TaskStruct.live_pgdir hl))

/-! ## Calls that leave the tasks alone -/

theorem Effect.refl (L : Spaces) (s : Vm) (A : Nat → Prop) : Effect L s s A :=
  ⟨Rest.refl s, rfl, rfl, fun _ _ _ _ _ hf => hf, fun _ _ _ _ _ _ _ => rfl, fun _ _ _ => rfl⟩

theorem Effect.trans {A : Nat → Prop} (h₁ : Effect L s s₁ A) (h₂ : Effect L s₁ s' A) : Effect L s s' A where
  rest := h₁.rest.trans h₂.rest
  room := h₂.room.trans h₁.room
  base := h₂.base.trans h₁.base
  part p a v f hp hf := h₂.part p a v f (by rw [part_congr h₁.rest.tasks]; exact hp) (h₁.part p a v f hp hf)
  btmp p k v f hA hp hf := by
    rw [h₂.btmp p k v f hA (by rw [part_congr h₁.rest.tasks]; exact hp) (h₁.part p _ v f hp hf),
      h₁.btmp p k v f hA hp hf]
  page p v hA := (h₂.page p v hA).trans (h₁.page p v hA)

theorem Effect.mono {A B : Nat → Prop} (h : Effect L s s' A) (hAB : ∀ p, A p → B p) : Effect L s s' B :=
  ⟨h.rest, h.room, h.base, h.part, fun p k v f hB => h.btmp p k v f fun hA => hB (hAB p hA),
    fun p v hB => h.page p v fun hA => hB (hAB p hA)⟩

/-- The number of pages of a bitmap. -/
theorem UserSpace.pages_lt (h : UserSpace L s p u) (hk : k ≤ u.btmpBytesLen / 4096) : k < bitmapPgCnt := by
  rw [h.len] at hk
  have : userBtmpLen / 4096 + 1 = bitmapPgCnt := by decide
  omega

/-- The processes that a call does not touch stay in agreement. -/
theorem Sound.user_carry {A : Nat → Prop} (h : Sound L s) (he : Effect L s s' A) (ht : s.tasks p = some t)
    (hl : t.live = true) (hA : ¬ A p) : UserSpace L s' p t.userprogVaddr := by
  have hu := h.user p t ht hl
  refine hu.congr (fun k f hk hf => ?_) fun v => by rw [he.page p v hA]
  have hp := part_map ht hl (hu.pages_lt hk)
  refine ⟨he.part p _ _ f hp hf, he.btmp p k _ f hA hp hf, fun q hq => ?_⟩
  obtain ⟨-, hc⟩ := h.part_frame hp hf hq
  cases hc

/-- A call keeps the invariant if it does so for the processes it changes. -/
theorem Sound.carry {A : Nat → Prop} (h : Sound L s) (he : Effect L s s' A) (hf : Frames L quits s')
    (hk : KernelBits s') (hcow : Cow L s')
    (hu : ∀ p t, A p → s.tasks p = some t → t.live = true → UserSpace L s' p t.userprogVaddr) :
    Sound L s' where
  frames := hf
  few := h.few
  kernelBits := hk
  room := he.room ▸ h.room
  top := he.base ▸ h.top
  live := by
    funext p
    rw [← h.live]
    unfold Vm.spaces
    rw [he.rest.tasks]
    cases ht : s.tasks p with
    | none => rfl
    | some t =>
      simp only [Option.bind_some]
      by_cases hl : t.live = true
      · rw [if_pos hl, if_pos hl]
        have hp := part_dir ht (TaskStruct.live_pgdir hl)
        obtain ⟨-, f, hf⟩ := h.part_ref hp (fun hc => by cases hc.2)
        rw [(refs_kernel.1 hf).2, (refs_kernel.1 (he.part p _ _ f hp hf)).2]
      · rw [if_neg hl, if_neg hl]
  mapped p a v hp := by
    rw [part_congr he.rest.tasks] at hp
    rcases h.mapped p a v hp with hm | ⟨hv, hpr⟩
    · exact .inl hm
    · exact .inr ⟨hv, (refs_kernel.1 (he.part p a v _ hp (refs_kernel.2 ⟨hpr, rfl⟩))).1⟩
  main t ht := h.main t (by rwa [he.rest.tasks] at ht)
  own p q a b v hp hq := by
    rw [part_congr he.rest.tasks] at hp hq
    exact h.own p q a b v hp hq
  user p t ht hl := by
    rw [he.rest.tasks] at ht
    by_cases hA : A p
    · exact hu p t hA ht hl
    · exact h.user_carry he ht hl hA
  cow := hcow
  inUse t ht hl := by
    rw [he.rest.tasks, he.rest.cur] at ht
    rw [he.rest.cur, he.rest.cr3]
    exact h.inUse t ht hl

end

end Enix.Memory
