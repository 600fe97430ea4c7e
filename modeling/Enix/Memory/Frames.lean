import Enix.Memory.Refs

/-!
# The books of the frames

`Frames L due s`: the references of the spaces `L` are in order, `mem` counts
them up to what is `due`, and a frame of a pool is marked in its bitmap exactly
when it is counted.

* `entries_setPhys`, `entries_putPte`, `entries_addTable`: what a write to
  physical memory does to the entries. A frame that is neither a directory nor
  a page table is `Plain`.
* `Books.claim`, `Books.uncount`: a frame is taken from its pool, or counted down.
* `Books.attach`, `Books.detach`, `Books.reflag`: an entry is written, removed, or
  gets other flags.
-/
set_option autoImplicit false

namespace Enix.Memory
open Enix.Core Enix.Kernel Function

namespace Vm

@[simp] theorem pool_kernel (s : Vm) : s.pool .kernel = s.kernelPool := rfl
@[simp] theorem pool_user (s : Vm) : s.pool .user = s.userPool := rfl

/-- Frame `f` is one of a pool. -/
def Holds (s : Vm) (pf : PoolFlags) (f : Nat) : Prop :=
  (s.pool pf).phyAddrStart ≤ f ∧ f < (s.pool pf).phyAddrStart + (s.pool pf).poolBitmap.size

def Pooled (s : Vm) (f : Nat) : Prop := s.Holds .kernel f ∨ s.Holds .user f

/-- The bit of frame `f`, in the bitmap that `free_a_phy_page` chooses. -/
def frameBit (s : Vm) (f : Nat) : Bool :=
  if s.userPool.phyAddrStart ≤ f then s.userPool.poolBitmap.bit (f - s.userPool.phyAddrStart)
  else s.kernelPool.poolBitmap.bit (f - s.kernelPool.phyAddrStart)

/-- The pool that `free_a_phy_page` chooses. -/
def poolOf (s : Vm) (f : Nat) : PoolFlags := if s.userPool.phyAddrStart ≤ f then .user else .kernel

/-- The bit of frame `f` becomes `v`. -/
def mark (s : Vm) (f : Nat) (v : Bool) : Vm :=
  s.setPool { s.pool (s.poolOf f) with
    poolBitmap := (s.pool (s.poolOf f)).poolBitmap.set (f - (s.pool (s.poolOf f)).phyAddrStart) v } (s.poolOf f)

/-- `palloc` has found frame `f`. -/
def claim (s : Vm) (f : Nat) : Vm := (s.mark f true).setMem f 1

/-- What `free_a_phy_page` does to frame `f`. -/
def uncount (s : Vm) (f : Nat) : Vm :=
  if 1 < s.mem f then s.setMem f (s.mem f - 1) else (s.mark f false).setMem f 0

/-- Everything but the pools and `mem` is the same. -/
structure SameRest (s s' : Vm) : Prop where
  phys : s'.phys = s.phys
  kernelVaddr : s'.kernelVaddr = s.kernelVaddr
  kernelPte : s'.kernelPte = s.kernelPte
  tasks : s'.tasks = s.tasks
  threadAllList : s'.threadAllList = s.threadAllList
  pidBitmap : s'.pidBitmap = s.pidBitmap
  cr3 : s'.cr3 = s.cr3
  cur : s'.cur = s.cur

theorem SameRest.refl (s : Vm) : SameRest s s := ⟨rfl, rfl, rfl, rfl, rfl, rfl, rfl, rfl⟩

theorem SameRest.trans {s₁ s₂ s₃ : Vm} (h₁ : SameRest s₁ s₂) (h₂ : SameRest s₂ s₃) : SameRest s₁ s₃ :=
  ⟨h₂.phys.trans h₁.phys, h₂.kernelVaddr.trans h₁.kernelVaddr, h₂.kernelPte.trans h₁.kernelPte,
    h₂.tasks.trans h₁.tasks, h₂.threadAllList.trans h₁.threadAllList, h₂.pidBitmap.trans h₁.pidBitmap,
    h₂.cr3.trans h₁.cr3, h₂.cur.trans h₁.cur⟩

theorem SameRest.mark (s : Vm) (f : Nat) (v : Bool) : SameRest s (s.mark f v) := by
  unfold Vm.mark
  cases s.poolOf f with
  | kernel => exact ⟨rfl, rfl, rfl, rfl, rfl, rfl, rfl, rfl⟩
  | user => exact ⟨rfl, rfl, rfl, rfl, rfl, rfl, rfl, rfl⟩

theorem SameRest.setMem (s : Vm) (f c : Nat) : SameRest s (s.setMem f c) :=
  ⟨rfl, rfl, rfl, rfl, rfl, rfl, rfl, rfl⟩

theorem SameRest.claim (s : Vm) (f : Nat) : SameRest s (s.claim f) :=
  (SameRest.mark s f true).trans (SameRest.setMem _ f 1)

theorem SameRest.uncount (s : Vm) (f : Nat) : SameRest s (s.uncount f) := by
  unfold Vm.uncount
  split
  · exact SameRest.setMem s f _
  · exact (SameRest.mark s f false).trans (SameRest.setMem _ f 0)

/-- The pools have the same places. -/
structure SamePools (s s' : Vm) : Prop where
  kernelStart : s'.kernelPool.phyAddrStart = s.kernelPool.phyAddrStart
  kernelSize : s'.kernelPool.poolBitmap.size = s.kernelPool.poolBitmap.size
  userStart : s'.userPool.phyAddrStart = s.userPool.phyAddrStart
  userSize : s'.userPool.poolBitmap.size = s.userPool.poolBitmap.size

theorem SamePools.refl (s : Vm) : SamePools s s := ⟨rfl, rfl, rfl, rfl⟩

theorem SamePools.trans {s₁ s₂ s₃ : Vm} (h₁ : SamePools s₁ s₂) (h₂ : SamePools s₂ s₃) : SamePools s₁ s₃ :=
  ⟨h₂.kernelStart.trans h₁.kernelStart, h₂.kernelSize.trans h₁.kernelSize,
    h₂.userStart.trans h₁.userStart, h₂.userSize.trans h₁.userSize⟩

theorem SamePools.holds {s s' : Vm} (h : SamePools s s') (pf : PoolFlags) : s'.Holds pf = s.Holds pf := by
  funext f
  unfold Holds
  cases pf with
  | kernel => simp only [pool_kernel, h.kernelStart, h.kernelSize]
  | user => simp only [pool_user, h.userStart, h.userSize]

theorem SamePools.pooled {s s' : Vm} (h : SamePools s s') : s'.Pooled = s.Pooled := by
  funext f
  unfold Pooled
  rw [h.holds, h.holds]

theorem SamePools.mark (s : Vm) (f : Nat) (v : Bool) : SamePools s (s.mark f v) := by
  unfold Vm.mark
  cases s.poolOf f with
  | kernel => exact ⟨rfl, rfl, rfl, rfl⟩
  | user => exact ⟨rfl, rfl, rfl, rfl⟩

theorem SamePools.setMem (s : Vm) (f c : Nat) : SamePools s (s.setMem f c) := ⟨rfl, rfl, rfl, rfl⟩

theorem SamePools.claim (s : Vm) (f : Nat) : SamePools s (s.claim f) :=
  (SamePools.mark s f true).trans (SamePools.setMem _ f 1)

theorem SamePools.uncount (s : Vm) (f : Nat) : SamePools s (s.uncount f) := by
  unfold Vm.uncount
  split
  · exact SamePools.setMem s f _
  · exact (SamePools.mark s f false).trans (SamePools.setMem _ f 0)

theorem mem_mark (s : Vm) (f : Nat) (v : Bool) : (s.mark f v).mem = s.mem := by
  unfold Vm.mark
  cases s.poolOf f with
  | kernel => rfl
  | user => rfl

theorem frameBit_setMem (s : Vm) (f c : Nat) : (s.setMem f c).frameBit = s.frameBit := rfl

/-- Two frames of the pools have two bits. -/
theorem frameBit_mark {s : Vm} {f g : Nat} (hf : s.kernelPool.phyAddrStart ≤ f)
    (hg : s.kernelPool.phyAddrStart ≤ g) (v : Bool) :
    (s.mark f v).frameBit g = if g = f then v else s.frameBit g := by
  unfold mark poolOf
  by_cases hu : s.userPool.phyAddrStart ≤ f
  · simp only [if_pos hu, pool_user]
    unfold frameBit setPool
    by_cases hgu : s.userPool.phyAddrStart ≤ g
    · simp only [if_pos hgu, Bitmap.bit_set]
      by_cases hgf : g = f
      · subst hgf
        simp
      · rw [if_neg hgf, if_neg (by omega)]
    · simp only [if_neg hgu]
      rw [if_neg (by omega)]
  · simp only [if_neg hu, pool_kernel]
    unfold frameBit setPool
    by_cases hgu : s.userPool.phyAddrStart ≤ g
    · simp only [if_pos hgu]
      rw [if_neg (by omega)]
    · simp only [if_neg hgu, Bitmap.bit_set]
      by_cases hgf : g = f
      · subst hgf
        simp
      · rw [if_neg hgf, if_neg (by omega)]

end Vm

/-- The flags of an entry. -/
def FlagsOk : Ref → Nat → Prop
  | .kernel _, w => w % 4096 = pgRw
  | .pde _ _, w => w % 4096 = pgRw
  | .pte _ _, w => w % 4096 = pgRw ∨ w % 4096 = pgRo

/-- The books for the entries `e`. -/
structure Books (L : Spaces) (due : Nat → Int) (s : Vm) (e : Ref → Option Nat) : Prop where
  base : s.kernelPool.phyAddrStart = memBase
  split : memBase + s.kernelPool.poolBitmap.size ≤ s.userPool.phyAddrStart
  top : s.userPool.phyAddrStart + s.userPool.poolBitmap.size ≤ 0x100000
  ok : RefsOk (s.Holds .kernel) s.Pooled L (refsOf e)
  bal : Balanced s.Pooled (refsOf e) s.mem due
  bits : ∀ f, s.Pooled f → (s.frameBit f = true ↔ 0 < s.mem f)
  cell : ∀ f, s.Pooled f → 0 < s.mem f → f < memBase + physicalPage
  flags : ∀ r w, e r = some w → FlagsOk r w

abbrev Frames (L : Spaces) (due : Nat → Int) (s : Vm) : Prop := Books L due s (entries L s)

/-- Frame `f` is neither a directory nor a page table. -/
def Plain (L : Spaces) (s : Vm) (f : Nat) : Prop :=
  (∀ p, L p ≠ some f) ∧ ∀ p i, refs L s (.pde p i) ≠ some f

/-! ## Writes to physical memory -/

section Entries
variable {L : Spaces} {s : Vm} {r : Ref} {f g p q i j v w d : Nat} {b : Bytes}

theorem refs_eq_some : refs L s r = some f ↔ ∃ w, entries L s r = some w ∧ w / 4096 = f := by
  simp [refs, refsOf]

theorem refs_eq_none : refs L s r = none ↔ entries L s r = none := by
  simp [refs, refsOf]

theorem refs_kernel : refs L s (.kernel v) = some f ↔
    present (s.kernelPte v) = true ∧ s.kernelPte v / 4096 = f := by
  simp only [refs_eq_some, entries, entry_eq_some]
  constructor
  · rintro ⟨w, ⟨hp, rfl⟩, hf⟩
    exact ⟨hp, hf⟩
  · rintro ⟨hp, hf⟩
    exact ⟨_, ⟨hp, rfl⟩, hf⟩

theorem entries_pde (hL : L p = some d) : entries L s (.pde p i) = some w ↔
    i < 768 ∧ present (pdeAt s.phys d i) = true ∧ pdeAt s.phys d i = w := by
  simp only [entries, hL, Option.bind_some]
  split
  · rename_i hi
    simp [entry_eq_some, hi]
  · rename_i hi
    simp [hi]

theorem entries_pte (hL : L p = some d) : entries L s (.pte p v) = some w ↔
    v < kernelBase ∧ present (pdeAt s.phys d (v / 1024)) = true ∧
      present (pteAt s.phys d v) = true ∧ pteAt s.phys d v = w := by
  simp only [entries, hL, Option.bind_some]
  split
  · rename_i h
    simp [entry_eq_some, h.1, h.2]
  · rename_i h
    constructor
    · intro hn
      cases hn
    · rintro ⟨h1, h2, -⟩
      exact absurd ⟨h1, h2⟩ h

theorem entries_dead (hL : L p = none) : entries L s (.pde p i) = none ∧ entries L s (.pte p v) = none := by
  simp [entries, hL]

/-- The directory entry over a mapped page. -/
theorem pde_of_pte (hr : entries L s (.pte p v) = some w) :
    ∃ d, L p = some d ∧ v < kernelBase ∧ v / 1024 < 768 ∧
      entries L s (.pde p (v / 1024)) = some (pdeAt s.phys d (v / 1024)) := by
  cases hL : L p with
  | none =>
    rw [(entries_dead (s := s) (i := 0) hL).2] at hr
    cases hr
  | some d =>
    obtain ⟨hv, hp, -⟩ := (entries_pte hL).1 hr
    have hi : v / 1024 < 768 := by unfold kernelBase at hv; omega
    exact ⟨d, rfl, hv, hi, (entries_pde hL).2 ⟨hi, hp, rfl⟩⟩

@[simp] theorem phys_setPhys_self : (s.setPhys f b).phys f = b := update_self ..

theorem phys_setPhys_ne (h : g ≠ f) : (s.setPhys f b).phys g = s.phys g := update_of_ne h ..

theorem pdeAt_setPhys (h : d ≠ f) : pdeAt (s.setPhys f b).phys d i = pdeAt s.phys d i := by
  unfold pdeAt
  rw [phys_setPhys_ne h]

theorem pteAt_setPhys (h : d ≠ f) (ht : pdeAt s.phys d (v / 1024) / 4096 ≠ f) :
    pteAt (s.setPhys f b).phys d v = pteAt s.phys d v := by
  unfold pteAt
  rw [pdeAt_setPhys h, phys_setPhys_ne ht]

/-- A write to a frame that is neither a directory nor a page table leaves the
entries alone. -/
theorem entries_setPhys (h : Plain L s f) (b : Bytes) : entries L (s.setPhys f b) = entries L s := by
  funext r
  cases r with
  | kernel v => rfl
  | pde p i =>
    cases hL : L p with
    | none => rw [(entries_dead (v := 0) hL).1, (entries_dead (v := 0) hL).1]
    | some d =>
      have hd : d ≠ f := fun he => h.1 p (he ▸ hL)
      simp only [entries, hL, Option.bind_some, pdeAt_setPhys hd]
  | pte p v =>
    cases hL : L p with
    | none => rw [(entries_dead (i := 0) hL).2, (entries_dead (i := 0) hL).2]
    | some d =>
      have hd : d ≠ f := fun he => h.1 p (he ▸ hL)
      simp only [entries, hL, Option.bind_some, pdeAt_setPhys hd]
      split
      · rename_i hv
        have hi : v / 1024 < 768 := by have := hv.1; unfold kernelBase at this; omega
        have ht : pdeAt s.phys d (v / 1024) / 4096 ≠ f := fun he =>
          h.2 p (v / 1024) (refs_eq_some.2 ⟨_, (entries_pde hL).2 ⟨hi, hv.2, rfl⟩, he⟩)
        rw [pteAt_setPhys hd ht]
      · rfl

/-- Only `p`'s directory entry `i` refers to the table in frame `f`. -/
structure TableOf (L : Spaces) (s : Vm) (p i f : Nat) : Prop where
  ref : refs L s (.pde p i) = some f
  only : ∀ r, refs L s r = some f → r = .pde p i
  notDir : ∀ q, L q ≠ some f

/-- An entry of a page table is written. -/
theorem entries_putPte (h : TableOf L s p i f) (hj : j < 1024) (hw : w < 4294967296) :
    entries L (s.setPhys f (putWord (s.phys f) (4 * j) w)) =
      update (entries L s) (.pte p (1024 * i + j)) (entry w) := by
  obtain ⟨wp, hwp, hf⟩ := refs_eq_some.1 h.ref
  funext r
  cases r with
  | kernel v =>
    rw [update_of_ne (by simp)]
    rfl
  | pde q k =>
    rw [update_of_ne (by simp)]
    cases hL : L q with
    | none => rw [(entries_dead (v := 0) hL).1, (entries_dead (v := 0) hL).1]
    | some d =>
      have hd : d ≠ f := fun he => h.notDir q (he ▸ hL)
      simp only [entries, hL, Option.bind_some, pdeAt_setPhys hd]
  | pte q v =>
    cases hL : L q with
    | none =>
      have hne : Ref.pte q v ≠ .pte p (1024 * i + j) := by
        rintro he
        cases he
        rw [(entries_dead (v := 0) hL).1] at hwp
        cases hwp
      rw [update_of_ne hne, (entries_dead (i := 0) hL).2, (entries_dead (i := 0) hL).2]
    | some d =>
      have hd : d ≠ f := fun he => h.notDir q (he ▸ hL)
      by_cases hr : Ref.pte q v = .pte p (1024 * i + j)
      · rw [hr, update_self]
        cases hr
        obtain ⟨hi, hpr, rfl⟩ := (entries_pde hL).1 hwp
        have hdiv : (1024 * i + j) / 1024 = i := by omega
        have hmod : (1024 * i + j) % 1024 = j := by omega
        have hv : 1024 * i + j < kernelBase := by unfold kernelBase; omega
        have hat : pteAt (s.setPhys f (putWord (s.phys f) (4 * j) w)).phys d (1024 * i + j) = w := by
          unfold pteAt
          rw [hdiv, hmod, pdeAt_setPhys hd, hf, phys_setPhys_self]
          exact le32_putWord_self hw
        simp only [entries, hL, Option.bind_some, hdiv, pdeAt_setPhys hd, hv, hpr, true_and, if_true,
          hat]
      · rw [update_of_ne hr]
        simp only [entries, hL, Option.bind_some, pdeAt_setPhys hd]
        split
        · rename_i hv
          congr 1
          by_cases ht : pdeAt s.phys d (v / 1024) / 4096 = f
          · have hi' : v / 1024 < 768 := by have := hv.1; unfold kernelBase at this; omega
            have hq : refs L s (.pde q (v / 1024)) = some f :=
              refs_eq_some.2 ⟨_, (entries_pde hL).2 ⟨hi', hv.2, rfl⟩, ht⟩
            have he := h.only _ hq
            cases he
            have hne : v % 1024 ≠ j := fun hm => hr (by congr 1; omega)
            unfold pteAt
            rw [pdeAt_setPhys hd, ht, phys_setPhys_self]
            exact le32_putWord_ne (by omega)
          · exact pteAt_setPhys hd ht
        · rfl

/-- A cleared page table is entered in a directory. -/
theorem entries_addTable (hL : L p = some d) (hinj : ∀ q, L q = some d → q = p)
    (hdir : ∀ q k, refs L s (.pde q k) ≠ some d) (hi : i < 768)
    (hno : entries L s (.pde p i) = none) (hg : Plain L s g) (hgd : g ≠ d) (hg20 : g < 0x100000) :
    entries L ((s.setPhys d (putWord (s.phys d) (4 * i) (g * 4096 + pgRw))).setPhys g zeros) =
      update (entries L s) (.pde p i) (some (g * 4096 + pgRw)) := by
  have hw : g * 4096 + pgRw < 4294967296 := by unfold pgRw; omega
  have hnp : present (pdeAt s.phys d i) = false := by
    by_contra hp
    rw [(entries_pde hL).2 ⟨hi, by simpa using hp, rfl⟩] at hno
    cases hno
  -- the directory before and after
  have hself : pdeAt ((s.setPhys d (putWord (s.phys d) (4 * i) (g * 4096 + pgRw))).setPhys g zeros).phys d i =
      g * 4096 + pgRw := by
    rw [pdeAt_setPhys (Ne.symm hgd)]
    unfold pdeAt
    rw [phys_setPhys_self]
    exact le32_putWord_self hw
  have hother : ∀ e k, L p = some e ∧ k ≠ i ∨ e ≠ d ∧ e ≠ g →
      pdeAt ((s.setPhys d (putWord (s.phys d) (4 * i) (g * 4096 + pgRw))).setPhys g zeros).phys e k =
        pdeAt s.phys e k := by
    rintro e k (⟨he, hk⟩ | ⟨hed, heg⟩)
    · rw [hL] at he
      cases he
      rw [pdeAt_setPhys (Ne.symm hgd)]
      unfold pdeAt
      rw [phys_setPhys_self]
      exact le32_putWord_ne (by omega)
    · rw [pdeAt_setPhys heg, pdeAt_setPhys hed]
  funext r
  cases r with
  | kernel v =>
    rw [update_of_ne (by simp)]
    rfl
  | pde q k =>
    by_cases hr : Ref.pde q k = .pde p i
    · rw [hr, update_self]
      exact (entries_pde hL).2 ⟨hi, by rw [hself]; exact present_pgRw g, hself⟩
    · rw [update_of_ne hr]
      cases hq : L q with
      | none => rw [(entries_dead (v := 0) hq).1, (entries_dead (v := 0) hq).1]
      | some e =>
        have hoth : L p = some e ∧ k ≠ i ∨ e ≠ d ∧ e ≠ g := by
          by_cases hed : e = d
          · subst hed
            have hqp := hinj q hq
            subst hqp
            exact .inl ⟨hq, fun hk => hr (by rw [hk])⟩
          · exact .inr ⟨hed, fun he => hg.1 q (he ▸ hq)⟩
        simp only [entries, hq, Option.bind_some, hother e k hoth]
  | pte q v =>
    rw [update_of_ne (by simp)]
    cases hq : L q with
    | none => rw [(entries_dead (i := 0) hq).2, (entries_dead (i := 0) hq).2]
    | some e =>
      by_cases hr : q = p ∧ v / 1024 = i
      · -- a page under the new table
        obtain ⟨rfl, rfl⟩ := hr
        rw [hL] at hq
        cases hq
        have hz : pteAt ((s.setPhys d (putWord (s.phys d) (4 * (v / 1024)) (g * 4096 + pgRw))).setPhys g
            zeros).phys d v = 0 := by
          unfold pteAt
          rw [hself, frame_pgRw, phys_setPhys_self]
          exact le32_zeros _
        simp only [entries, hL, Option.bind_some, hself, hz, hnp]
        simp [entry, present]
      · have hoth : L p = some e ∧ v / 1024 ≠ i ∨ e ≠ d ∧ e ≠ g := by
          by_cases hed : e = d
          · subst hed
            have hqp := hinj q hq
            subst hqp
            exact .inl ⟨hq, fun hk => hr ⟨rfl, hk⟩⟩
          · exact .inr ⟨hed, fun he => hg.1 q (he ▸ hq)⟩
        simp only [entries, hq, Option.bind_some, hother e _ hoth]
        split
        · rename_i hv
          congr 1
          have hi' : v / 1024 < 768 := by have := hv.1; unfold kernelBase at this; omega
          have hrt : refs L s (.pde q (v / 1024)) = some (pdeAt s.phys e (v / 1024) / 4096) :=
            refs_eq_some.2 ⟨_, (entries_pde hq).2 ⟨hi', hv.2, rfl⟩, rfl⟩
          have htd : pdeAt s.phys e (v / 1024) / 4096 ≠ d := fun he => hdir q _ (he ▸ hrt)
          have htg : pdeAt s.phys e (v / 1024) / 4096 ≠ g := fun he => hg.2 q _ (he ▸ hrt)
          unfold pteAt
          rw [hother e _ hoth, phys_setPhys_ne htg, phys_setPhys_ne htd]
        · rfl

end Entries

/-! ## Entries and books -/

section Books
variable {L L' : Spaces} {due : Nat → Int} {s s' : Vm} {e : Ref → Option Nat} {r : Ref} {pf : PoolFlags}
  {f g p q i v w d : Nat}

theorem refsOf_update (e : Ref → Option Nat) (r : Ref) (o : Option Nat) :
    refsOf (update e r o) = update (refsOf e) r (o.map (· / 4096)) := by
  funext r'
  unfold refsOf
  by_cases hr : r' = r
  · subst hr
    simp only [update_self]
  · simp only [update_of_ne hr]

theorem refsOf_some (h : e r = some w) : refsOf e r = some (w / 4096) := by simp [refsOf, h]

theorem refsOf_none : refsOf e r = none ↔ e r = none := by simp [refsOf]

theorem Books.range (h : Books L due s e) (hf : s.Pooled f) : memBase ≤ f ∧ f < 0x100000 := by
  have hb := h.base
  have hs := h.split
  have ht := h.top
  rcases hf with ⟨h1, h2⟩ | ⟨h1, h2⟩
  · simp only [Vm.pool_kernel] at h1 h2
    omega
  · simp only [Vm.pool_user] at h1 h2
    omega

theorem Books.kernel_base (h : Books L due s e) : ∀ f, s.Holds .kernel f → memBase ≤ f :=
  fun _ hf => (h.range (.inl hf)).1

theorem Books.pooled_base (h : Books L due s e) : ∀ f, s.Pooled f → memBase ≤ f :=
  fun _ hf => (h.range hf).1

/-- The pools and `mem` are the same. -/
theorem Books.of_eq (h : Books L due s e) (hk : s'.kernelPool = s.kernelPool)
    (hu : s'.userPool = s.userPool) (hm : s'.mem = s.mem) : Books L due s' e := by
  cases s
  cases s'
  simp only at hk hu hm
  subst hk hu hm
  exact ⟨h.base, h.split, h.top, h.ok, h.bal, h.bits, h.cell, h.flags⟩

/-- The counter of a frame in use changes, and stays positive. -/
theorem Books.recount (h : Books L due s e) (hf : s.Pooled f) (hpos : 0 < s.mem f) {c : Nat} (hc : 0 < c) :
    Books L (owing due f ((c : Int) - s.mem f)) (s.setMem f c) e where
  base := h.base
  split := h.split
  top := h.top
  ok := h.ok
  bal := h.bal.count (by omega)
  bits g hg := by
    rw [Vm.frameBit_setMem, h.bits g hg]
    unfold Vm.setMem
    by_cases hgf : g = f
    · subst hgf
      simp only [update_self]
      exact ⟨fun _ => hc, fun _ => hpos⟩
    · simp only [update_of_ne hgf]
  cell g hg hm := by
    unfold Vm.setMem at hm
    by_cases hgf : g = f
    · subst hgf
      exact h.cell g hf hpos
    · simp only [update_of_ne hgf] at hm
      exact h.cell g hg hm
  flags := h.flags

/-- The bit and the counter of a frame change together. -/
theorem Books.remark (h : Books L due s e) (hf : s.Pooled f) {c : Nat} {b : Bool} (hb : b = true ↔ 0 < c)
    (hcell : 0 < c → f < memBase + physicalPage) :
    Books L (owing due f ((c : Int) - s.mem f)) ((s.mark f b).setMem f c) e := by
  have hp := (Vm.SamePools.mark s f b).trans (Vm.SamePools.setMem _ f c)
  have hbf : s.kernelPool.phyAddrStart ≤ f := h.base ▸ (h.range hf).1
  refine ⟨?_, ?_, ?_, ?_, ?_, fun g hg => ?_, fun g hg hm => ?_, h.flags⟩
  · rw [hp.kernelStart, h.base]
  · rw [hp.kernelSize, hp.userStart]
    exact h.split
  · rw [hp.userStart, hp.userSize]
    exact h.top
  · rw [hp.holds, hp.pooled]
    exact h.ok
  · rw [hp.pooled]
    unfold Vm.setMem
    simp only [Vm.mem_mark]
    exact h.bal.count (by omega)
  · rw [hp.pooled] at hg
    have hbg : s.kernelPool.phyAddrStart ≤ g := h.base ▸ (h.range hg).1
    rw [Vm.frameBit_setMem, Vm.frameBit_mark hbf hbg]
    unfold Vm.setMem
    simp only [Vm.mem_mark]
    by_cases hgf : g = f
    · subst hgf
      rw [if_pos rfl, update_self]
      exact hb
    · rw [if_neg hgf, update_of_ne hgf]
      exact h.bits g hg
  · rw [hp.pooled] at hg
    unfold Vm.setMem at hm
    simp only [Vm.mem_mark] at hm
    by_cases hgf : g = f
    · subst hgf
      rw [update_self] at hm
      exact hcell hm
    · rw [update_of_ne hgf] at hm
      exact h.cell g hg hm

theorem Books.claim (h : Books L due s e) (hf : s.Pooled f) (hb : s.frameBit f = false)
    (hc : f < memBase + physicalPage) : Books L (owing due f 1) (s.claim f) e := by
  have hm : s.mem f = 0 := by
    by_contra hne
    have := (h.bits f hf).2 (Nat.pos_of_ne_zero hne)
    rw [hb] at this
    cases this
  have hr := h.remark (c := 1) (b := true) hf (by simp) (fun _ => hc)
  rw [hm] at hr
  exact hr

theorem Books.uncount (h : Books L due s e) (hf : s.Pooled f) (hpos : 0 < s.mem f) :
    Books L (owing due f (-1)) (s.uncount f) e := by
  unfold Vm.uncount
  split
  · rename_i hgt
    have hr := h.recount hf hpos (c := s.mem f - 1) (by omega)
    rwa [show ((s.mem f - 1 : Nat) : Int) - s.mem f = -1 by omega] at hr
  · rename_i hgt
    have hr := h.remark (c := 0) (b := false) hf (by simp) (fun h0 => absurd h0 (Nat.lt_irrefl 0))
    rwa [show ((0 : Nat) : Int) - s.mem f = -1 by omega] at hr

theorem Books.attach (h : Books L due s e) (hr : e r = none)
    (hhome : Home (s.Holds .kernel) s.Pooled r (w / 4096)) (hfl : FlagsOk r w)
    (hs : memBase ≤ w / 4096 → ∀ r', refsOf e r' = some (w / 4096) →
      ∃ p p' v, r = .pte p v ∧ r' = .pte p' v) :
    Books L (owing due (w / 4096) (-1)) s (update e r (some w)) where
  base := h.base
  split := h.split
  top := h.top
  ok := by
    rw [refsOf_update]
    exact h.ok.attach (refsOf_none.2 hr) hhome hs
  bal := by
    rw [refsOf_update]
    exact h.bal.attach h.ok.fin (refsOf_none.2 hr) _
  bits := h.bits
  cell := h.cell
  flags r' w' hw := by
    by_cases hrr : r' = r
    · subst hrr
      rw [update_self] at hw
      cases hw
      exact hfl
    · rw [update_of_ne hrr] at hw
      exact h.flags r' w' hw

theorem Books.detach (h : Books L due s e) (hr : e r = some w) (hd : ∀ p, L p ≠ some (w / 4096)) :
    Books L (owing due (w / 4096) 1) s (update e r none) where
  base := h.base
  split := h.split
  top := h.top
  ok := by
    rw [refsOf_update]
    refine h.ok.detach fun p d hp hrd => ?_
    rw [refsOf_some hr] at hrd
    exact hd p (hrd ▸ hp)
  bal := by
    rw [refsOf_update]
    exact h.bal.detach h.ok.fin (refsOf_some hr)
  bits := h.bits
  cell := h.cell
  flags r' w' hw := by
    by_cases hrr : r' = r
    · subst hrr
      rw [update_self] at hw
      cases hw
    · rw [update_of_ne hrr] at hw
      exact h.flags r' w' hw

/-- Only the flags of an entry change. -/
theorem Books.reflag {w' : Nat} (h : Books L due s e) (hr : e r = some w) (hw : w' / 4096 = w / 4096)
    (hfl : FlagsOk r w') : Books L due s (update e r (some w')) := by
  have hsame : refsOf (update e r (some w')) = refsOf e := by
    rw [refsOf_update, Option.map_some, hw, ← refsOf_some hr, update_eq_self]
  refine ⟨h.base, h.split, h.top, hsame ▸ h.ok, hsame ▸ h.bal, h.bits, h.cell, fun r₁ w₁ h₁ => ?_⟩
  by_cases hrr : r₁ = r
  · subst hrr
    rw [update_self] at h₁
    cases h₁
    exact hfl
  · rw [update_of_ne hrr] at h₁
    exact h.flags r₁ w₁ h₁

/-- What a page refers to is neither a directory nor a page table. -/
theorem Frames.plain_page (h : Frames L due s) (hr : refs L s (.pte p v) = some f) : Plain L s f := by
  refine ⟨fun q hq => ?_, fun q i hi => ?_⟩
  · obtain ⟨u, -, hu⟩ := h.ok.dir_only h.kernel_base hq hr
    cases hu
  · cases h.ok.table_only h.kernel_base hi hr

/-- A frame of the pools that nothing refers to is neither. -/
theorem Frames.plain_fresh (h : Frames L due s) (hf : ∀ r, refs L s r ≠ some f) : Plain L s f := by
  refine ⟨fun q hq => ?_, fun q i hi => hf _ hi⟩
  obtain ⟨u, -, hu⟩ := h.ok.dir q f hq
  exact hf _ hu

/-- A page of the kernel's heap that is no directory is neither. -/
theorem Frames.plain_kernel (h : Frames L due s)
    (hr : refs L s (.kernel v) = some f) (hd : ∀ p, L p ≠ some f) : Plain L s f := by
  refine ⟨hd, fun q i hi => ?_⟩
  cases h.ok.table_only h.kernel_base hi hr

theorem Frames.tableOf (h : Frames L due s) (hr : refs L s (.pde p i) = some f) : TableOf L s p i f := by
  refine ⟨hr, fun r hr' => h.ok.table_only h.kernel_base hr hr', fun q hq => ?_⟩
  obtain ⟨u, -, hu⟩ := h.ok.dir_only h.kernel_base hq hr
  cases hu

theorem Frames.setPhys (h : Frames L due s) (hp : Plain L s f) (b : Bytes) : Frames L due (s.setPhys f b) := by
  unfold Frames
  rw [entries_setPhys hp]
  exact h.of_eq rfl rfl rfl

/-! ## Taking and giving back frames -/

/-- No memory is left, or `mem` has no cell for the frame. -/
def OutOfMemory (x : Stop) : Prop := x = .assertion .bitmapScan ∨ x = .ub

/-- A frame of a pool is chosen by its address. -/
theorem Books.poolOf (h : Books L due s e) (hf : s.Holds pf f) : s.poolOf f = pf := by
  have hs := h.split
  have hb := h.base
  obtain ⟨h1, h2⟩ := hf
  unfold Vm.poolOf
  cases pf with
  | kernel =>
    simp only [Vm.pool_kernel] at h1 h2
    rw [if_neg (by omega)]
  | user =>
    simp only [Vm.pool_user] at h1
    rw [if_pos h1]

theorem Vm.holds_pooled (hf : s.Holds pf f) : s.Pooled f := by
  cases pf with
  | kernel => exact .inl hf
  | user => exact .inr hf

theorem Vm.frameBit_eq (s : Vm) (f : Nat) :
    s.frameBit f = (s.pool (s.poolOf f)).poolBitmap.bit (f - (s.pool (s.poolOf f)).phyAddrStart) := by
  unfold Vm.frameBit Vm.poolOf
  split
  · rfl
  · rfl

/-- `palloc` takes a frame that is not in use. -/
theorem palloc_spec (h : Books L due s e) : runs OutOfMemory (palloc pf) (fun r s' => ∃ f, r = some f ∧
    s.Holds pf f ∧ s.frameBit f = false ∧ f < memBase + physicalPage ∧ s' = s.claim f) s := by
  unfold palloc
  rw [runs_read_bind]
  cases hscan : (s.pool pf).poolBitmap.scan 1 with
  | none => exact .inl rfl
  | some i =>
    obtain ⟨n, rfl, hn, hbit⟩ := Bitmap.scan_one_lt hscan
    rw [get_some, runs_pure_bind, if_neg (by omega)]
    simp only [Int.toNat_natCast, runs_change_bind, runs_read_bind]
    have hf : s.Holds pf (n + (s.pool pf).phyAddrStart) := ⟨by omega, by omega⟩
    have hpo := h.poolOf hf
    have hst : ∀ b, ((s.setPool { s.pool pf with poolBitmap := b } pf).pool pf).phyAddrStart =
        (s.pool pf).phyAddrStart := by
      intro b
      cases pf with
      | kernel => rfl
      | user => rfl
    have hmark : s.setPool { s.pool pf with poolBitmap := (s.pool pf).poolBitmap.set n true } pf =
        s.mark (n + (s.pool pf).phyAddrStart) true := by
      unfold Vm.mark
      rw [hpo, Nat.add_sub_cancel]
    rw [hst, hmark]
    unfold memCell
    rw [runs_bind, runs_bind]
    refine runs_guard (fun _ => .inr rfl) fun hc => ?_
    simp only [runs_read, runs_change_bind, runs_pure]
    refine ⟨_, rfl, hf, ?_, hc.2, rfl⟩
    rw [Vm.frameBit_eq, hpo, Nat.add_sub_cancel]
    exact hbit

/-- A frame in use is counted down. -/
theorem freeAPhyPage_run (h : Books L due s e) (hf : s.Pooled f) (hpos : 0 < s.mem f) :
    freeAPhyPage f s = .ok ((), s.uncount f) := by
  have hcell : memCell f s = .ok (s.mem f, s) := by
    unfold memCell
    rw [bind_ok (guard_run ⟨(h.range hf).1, h.cell f hf hpos⟩ _ s)]
    rfl
  unfold freeAPhyPage
  rw [bind_ok hcell]
  unfold Vm.uncount
  by_cases hgt : 1 < s.mem f
  · rw [if_pos hgt, if_pos hgt]
    rfl
  · have h1 : s.mem f = 1 := by omega
    rw [if_neg hgt, if_neg hgt, bind_ok (guard_run h1 _ s)]
    rfl

end Books

end Enix.Memory
