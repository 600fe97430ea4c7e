import Enix.Memory.WriteFault

/-!
# A new process

`sys_fork` and `process_execute` get the pages of a process one by one and fill
them in before it is one of the live ones.

* `Kept`: what was referred to before keeps its contents and its entries.
* `blockDescInit_kernel`, `createPageDir_spec`: the descriptors of an empty heap,
  and a directory without pages.
* `Frames.addSpace`: the directory of a new space has no entries.
* `Sound.addProcess`: the invariant with one process more.
-/
set_option autoImplicit false

namespace Enix.Memory
open Enix.Core Enix.Kernel Function

/-- Only what process `c` got since has changed. -/
structure Kept (L : Spaces) (c : Nat) (s s' : Vm) : Prop extends Vm.SamePools s s' where
  start : Frames L quits s
  cr3 : s'.cr3 = s.cr3
  cur : s'.cur = s.cur
  threadAllList : s'.threadAllList = s.threadAllList
  tasks : ∀ p, p ≠ c → s'.tasks p = s.tasks p
  room : s'.kernelVaddr.size = s.kernelVaddr.size
  kernel : ∀ u w, entries L s (.kernel u) = some w → entries L s' (.kernel u) = some w
  user : ∀ r, (∀ u, r ≠ .kernel u) → entries L s' r = entries L s r
  phys : ∀ g r, refs L s r = some g → s'.phys g = s.phys g
  frames : Frames L quits s'
  kernelBits : KernelBits s'

/-- Pages `v` to `v + n - 1` of the kernel are new since `s`, on frames of their own. -/
structure Fresh (L : Spaces) (s s' : Vm) (v n : Nat) : Prop where
  heap : kHeapStart ≤ v
  old : ∀ k, k < n → entries L s (.kernel (v + k)) = none
  new : ∀ k, k < n → ∃ f, refs L s' (.kernel (v + k)) = some f ∧ s.Holds .kernel f ∧ ∀ r, refs L s r ≠ some f

/-- What `list_init` writes for the list at offset `o` of the page at `base`. -/
def listBytes (base : Nat) (b : Bytes) (o : Nat) : Bytes :=
  putWord (putWord (putWord (putWord b o 0) (o + 4) (base + (o + 8))) (o + 8) (base + o)) (o + 12) 0

/-- What `block_desc_init` writes for `n` descriptors from offset `o` on. -/
def descBytes (base : Nat) : (b : Bytes) → (o blockSize n : Nat) → Bytes
  | b, _, _, 0 => b
  | b, o, blockSize, n + 1 =>
    descBytes base (listBytes base (putWord (putWord b o blockSize) (o + 4) ((4096 - arenaSize) / blockSize)) (o + 8))
      (o + descSize) (blockSize * 2) n

section
variable {L L' : Spaces} {s s₀ s₁ s' : Vm} {t : TaskStruct} {r : Ref} {c f g p q v w n k d : Nat}

theorem Kept.refl (h : Frames L quits s) (hk : KernelBits s) (c : Nat) : Kept L c s s :=
  ⟨Vm.SamePools.refl s, h, rfl, rfl, rfl, fun _ _ => rfl, rfl, fun _ _ hw => hw, fun _ _ => rfl,
    fun _ _ _ => rfl, h, hk⟩

theorem Kept.refs_of (h : Kept L c s s') (hr : refs L s r = some f) : refs L s' r = some f := by
  obtain ⟨w, hw, hwf⟩ := refs_eq_some.1 hr
  refine refs_eq_some.2 ⟨w, ?_, hwf⟩
  cases r with
  | kernel u => exact h.kernel u w hw
  | pde p i => rwa [h.user _ (by simp)]
  | pte p v => rwa [h.user _ (by simp)]

theorem Kept.free_le (h : Kept L c s s') (hk : KernelBits s) : s'.kernelVaddr.free ≤ s.kernelVaddr.free :=
  hk.free_le h.kernelBits h.room fun v hv => (entries_kernel.1 (h.kernel v _ (entries_kernel.2 ⟨hv, rfl⟩))).1

theorem Kept.got (h : Kept L c s₀ s) (hg : GotPages L quits s s' v n) : Kept L c s₀ s' where
  toSamePools := h.toSamePools.trans hg.rest.toSamePools
  start := h.start
  cr3 := hg.rest.cr3.trans h.cr3
  cur := hg.rest.cur.trans h.cur
  threadAllList := hg.rest.threadAllList.trans h.threadAllList
  tasks p hp := by rw [hg.rest.tasks, h.tasks p hp]
  room := by
    obtain ⟨i, -, -, hkv⟩ := hg.run
    rw [hkv, setRange_size, h.room]
  kernel u w hw := hg.keeps (h.kernel u w hw)
  user r hr := by rw [hg.other r fun k _ => hr _, h.user r hr]
  phys g r hr := by rw [hg.phys_used (h.refs_of hr), h.phys g r hr]
  frames := hg.frames
  kernelBits := hg.bits

theorem Fresh.of_got (h : Kept L c s₀ s) (hg : GotPages L quits s s' v n) : Fresh L s₀ s' v n where
  heap := hg.heap
  old k hk := by
    cases he : entries L s₀ (.kernel (v + k)) with
    | none => rfl
    | some w =>
      have := hg.old k hk
      rw [h.kernel _ w he] at this
      cases this
  new k hk := by
    obtain ⟨f, hf, hh, hun⟩ := hg.fresh k hk
    rw [h.holds] at hh
    exact ⟨f, refs_eq_some.2 ⟨_, hf, frame_pgRw f⟩, hh, fun r hr => hun r (h.refs_of hr)⟩

/-- New pages stay where they are. -/
theorem Fresh.keep (hf : Fresh L s₀ s v n)
    (h : ∀ u f, refs L s (.kernel u) = some f → refs L s' (.kernel u) = some f) : Fresh L s₀ s' v n :=
  ⟨hf.heap, hf.old, fun k hk => by
    obtain ⟨f, hr, hh, hun⟩ := hf.new k hk
    exact ⟨f, h _ f hr, hh, hun⟩⟩

/-- A new page is filled in. -/
theorem Kept.store (h : Kept L c s₀ s) (hf : Fresh L s₀ s v n) (hk : k < n)
    (hr : refs L s (.kernel (v + k)) = some f) (b : Bytes) :
    Kept L c s₀ (s.setPhys f b) ∧ Stored L s (s.setPhys f b) := by
  obtain ⟨f', hf', -, hun⟩ := hf.new k hk
  rw [hf'] at hr
  cases hr
  have hpl : Plain L s f := h.frames.plain_kernel hf' fun q hq => by
    obtain ⟨u, -, hu⟩ := h.start.ok.dir q f hq
    exact hun _ hu
  have hst := Stored.setPhys hpl b
  refine ⟨⟨⟨h.kernelStart, h.kernelSize, h.userStart, h.userSize⟩, h.start, h.cr3, h.cur, h.threadAllList, h.tasks, h.room, fun u w hw => ?_, fun r hr => ?_,
    fun g r hr => ?_, hst.frames h.frames, hst.bits h.kernelBits⟩, hst⟩
  · rw [hst.entries]
    exact h.kernel u w hw
  · rw [hst.entries, h.user r hr]
  · have hgf : g ≠ f := fun he => hun r (he ▸ hr)
    rw [phys_setPhys_ne hgf, h.phys g r hr]

theorem Kept.trans (h₁ : Kept L c s₀ s) (h₂ : Kept L c s s') : Kept L c s₀ s' where
  toSamePools := h₁.toSamePools.trans h₂.toSamePools
  start := h₁.start
  cr3 := h₂.cr3.trans h₁.cr3
  cur := h₂.cur.trans h₁.cur
  threadAllList := h₂.threadAllList.trans h₁.threadAllList
  tasks p hp := (h₂.tasks p hp).trans (h₁.tasks p hp)
  room := h₂.room.trans h₁.room
  kernel u w hw := h₂.kernel u w (h₁.kernel u w hw)
  user r hr := (h₂.user r hr).trans (h₁.user r hr)
  phys g r hr := by rw [h₂.phys g r (h₁.refs_of hr), h₁.phys g r hr]
  frames := h₂.frames
  kernelBits := h₂.kernelBits

/-- What is new since `s` is new since an earlier state. -/
theorem Fresh.since (hf : Fresh L s s' v n) (h : Kept L c s₀ s) : Fresh L s₀ s' v n where
  heap := hf.heap
  old k hk := by
    cases he : entries L s₀ (.kernel (v + k)) with
    | none => rfl
    | some w =>
      have := hf.old k hk
      rw [h.kernel _ w he] at this
      cases this
  new k hk := by
    obtain ⟨f, hr, hh, hun⟩ := hf.new k hk
    rw [h.holds] at hh
    exact ⟨f, hr, hh, fun r hr' => hun r (h.refs_of hr')⟩

/-- Pages that are there are not new. -/
theorem Fresh.disjoint (hf : Fresh L s s' v n) (hk : k < n) (hr : refs L s (.kernel p) = some f) : p ≠ v + k := by
  rintro rfl
  obtain ⟨w, hw, -⟩ := refs_eq_some.1 hr
  rw [hf.old k hk] at hw
  cases hw

/-- The task of `c` and the bitmap of the pids may change. -/
theorem Kept.record (h : Kept L c s₀ s) (hp : s'.phys = s.phys) (hk : s'.kernelPte = s.kernelPte)
    (hkp : s'.kernelPool = s.kernelPool) (hup : s'.userPool = s.userPool) (hm : s'.mem = s.mem)
    (hv : s'.kernelVaddr = s.kernelVaddr) (h3 : s'.cr3 = s.cr3) (hc : s'.cur = s.cur)
    (hl : s'.threadAllList = s.threadAllList) (ht : ∀ p, p ≠ c → s'.tasks p = s.tasks p) : Kept L c s₀ s' where
  kernelStart := by rw [hkp, h.kernelStart]
  kernelSize := by rw [hkp, h.kernelSize]
  userStart := by rw [hup, h.userStart]
  userSize := by rw [hup, h.userSize]
  start := h.start
  cr3 := h3.trans h.cr3
  cur := hc.trans h.cur
  threadAllList := hl.trans h.threadAllList
  tasks p hp := (ht p hp).trans (h.tasks p hp)
  room := by rw [hv, h.room]
  kernel u w hw := by
    rw [entries_congr hp hk]
    exact h.kernel u w hw
  user r hr := by rw [entries_congr hp hk, h.user r hr]
  phys g r hr := by rw [hp, h.phys g r hr]
  frames := by
    unfold Frames
    rw [entries_congr hp hk]
    exact h.frames.of_eq hkp hup hm
  kernelBits := ⟨by rw [hk, hv]; exact h.kernelBits.set, by rw [hk, hv]; exact h.kernelBits.mapped⟩

/-! ## Pages and the directory -/

theorem setPhys_setPhys (s : Vm) (f : Nat) (a b : Bytes) : (s.setPhys f a).setPhys f b = s.setPhys f b := by
  unfold Vm.setPhys
  rw [update_idem]

/-- `get_kernel_pages` for a process that is being made. -/
theorem getPages_kept (h : Frames L quits s) (hk : KernelBits s) (c : Nat) (hn : 0 < n) (hn' : n < 3840) :
    runs OutOfMemory (getKernelPages n) (fun r s' =>
      (r = none ∧ s' = s ∧ s.kernelVaddr.scan n = some (-1)) ∨ ∃ v, r = some v ∧ Kept L c s s' ∧
        Fresh L s s' v n ∧ s'.tasks = s.tasks ∧ GotPages L quits s s' v n) s := by
  refine runs_post (getKernelPages_spec h (fun _ => le_refl 0) hk hn hn') ?_
  rintro r s' (hnone | ⟨v, rfl, hg⟩)
  · exact .inl hnone
  · have hkept := Kept.refl h hk c
    exact .inr ⟨v, rfl, hkept.got hg, Fresh.of_got hkept hg, hg.rest.tasks, hg⟩

/-- `get_kernel_pages(1)` does not return NULL. -/
theorem getPage_kept (h : Frames L quits s) (hk : KernelBits s) (c : Nat) :
    runs OutOfMemory (getKernelPages 1) (fun r s' => ∃ v, r = some v ∧ Kept L c s s' ∧
      Fresh L s s' v 1 ∧ s'.tasks = s.tasks ∧ GotPages L quits s s' v 1) s := by
  refine runs_post (getPages_kept h hk c (by decide) (by decide)) ?_
  rintro r s' (⟨-, -, hscan⟩ | hgot)
  · obtain ⟨n, hn, -⟩ := Bitmap.scan_one_lt hscan
    omega
  · exact hgot

/-- `create_page_dir`: entries 0 to 767 are clear. -/
theorem createPageDir_spec (h : Frames L quits s) (hk : KernelBits s) (c : Nat) :
    runs OutOfMemory createPageDir (fun r s' => ∃ v d, r = some v ∧ Kept L c s s' ∧ Fresh L s s' v 1 ∧
      (s'.tasks = s.tasks ∧ s'.pidBitmap = s.pidBitmap) ∧ refs L s' (.kernel v) = some d ∧
      (∀ i, i < 768 → pdeAt s'.phys d i = 0) ∧ ∃ j : Nat, s.kernelVaddr.scan 1 = some (j : Int)) s := by
  unfold createPageDir
  refine runs_seq (getPage_kept h hk c) ?_
  rintro _ s₁ ⟨v, rfl, hkept, hfresh, htasks, hg⟩
  obtain ⟨d, hd, -⟩ := hfresh.new 0 (by decide)
  have hv := heap_kernel hfresh.heap
  have hz := hg.zero 0 d (by decide) hd
  simp only
  rw [runs_bind_ok (addrV2p_kernel hv hd)]
  simp only [runs_change_bind, runs_pure, phys_setPhys_self, setPhys_setPhys]
  obtain ⟨hk₂, hst⟩ := hkept.store hfresh (by decide : 0 < 1) hd
    (putWord (splice (s₁.phys d) 3072 (shift (s₁.phys s₁.cr3) 3072) 1024) 4092 (d * 4096 + pgRw))
  refine ⟨v, d, rfl, hk₂, hfresh.keep fun u f hu => by rw [hst.refs]; exact hu,
    ⟨htasks, hst.rest.pidBitmap.trans hg.rest.pidBitmap⟩, by rw [hst.refs]; exact hd, fun i hi => ?_, ?_⟩
  · unfold pdeAt
    rw [phys_setPhys_self, le32_putWord_ne (by omega), le32_splice_out (by omega), hz]
    exact le32_zeros _
  · obtain ⟨j, hj, -⟩ := hg.run
    exact ⟨j, hj⟩

/-! ## Descriptors -/

/-- Stores leave the kernel's half of the page tables alone. -/
theorem walk_setPhys (hv : kernelBase ≤ v) (b : Bytes) : (s.setPhys f b).walk v = s.walk v := by
  unfold Vm.walk
  rw [pde_kernel hv, pde_kernel hv, pte_kernel hv, pte_kernel hv]
  rfl

theorem storeWord_kernel (hv : kernelBase ≤ v) (hw : s.walk v = some f) {o : Nat} (ho : o < 4096) (b : Bytes)
    (x : Nat) : storeWord (4096 * v + o) x (s.setPhys f b) = .ok ((), s.setPhys f (putWord b o x)) := by
  unfold storeWord
  rw [bind_ok (read_run _ _), show (4096 * v + o) / 4096 = v by omega, walk_setPhys hv, hw, get_some,
    bind_ok (pure_run f _), change_run, show (4096 * v + o) % 4096 = o by omega, phys_setPhys_self,
    setPhys_setPhys]

theorem listInit_kernel (hv : kernelBase ≤ v) (hw : s.walk v = some f) {o : Nat} (ho : o + 12 < 4096) (b : Bytes) :
    listInit (4096 * v + o) (s.setPhys f b) = .ok ((), s.setPhys f (listBytes (4096 * v) b o)) := by
  have hst := fun (o' : Nat) (h : o' < 4096) => storeWord_kernel hv hw h
  unfold listInit
  rw [bind_ok (hst o (by omega) b 0)]
  simp only [Nat.add_assoc]
  rw [bind_ok (hst (o + 4) (by omega) _ _), bind_ok (hst (o + 8) (by omega) _ _), hst (o + 12) (by omega) _ _]
  rfl

theorem blockDescLoop_kernel (hv : kernelBase ≤ v) (hw : s.walk v = some f) : ∀ n o blockSize b,
    o + descSize * n ≤ 4096 → blockDescLoop (4096 * v + o) blockSize n (s.setPhys f b) =
      .ok ((), s.setPhys f (descBytes (4096 * v) b o blockSize n)) := by
  intro n
  induction n with
  | zero =>
    intro o blockSize b _
    rfl
  | succ n ih =>
    intro o blockSize b ho
    unfold descSize at ho
    have hst := fun (o' : Nat) (h : o' < 4096) => storeWord_kernel hv hw h
    unfold blockDescLoop
    rw [bind_ok (hst o (by omega) b _)]
    simp only [Nat.add_assoc]
    rw [bind_ok (hst (o + 4) (by omega) _ _), bind_ok (listInit_kernel hv hw (by omega) _),
      ih (o + descSize) _ _ (by unfold descSize; omega)]
    rfl

/-- `block_desc_init` on the descriptors of a `task_struct`. -/
theorem blockDescInit_kernel (hv : kernelBase ≤ v) (hw : s.walk v = some f) :
    blockDescInit (4096 * v + uBlockDesc) s =
      .ok ((), s.setPhys f (descBytes (4096 * v) (s.phys f) uBlockDesc 16 descCnt)) := by
  have hself : s.setPhys f (s.phys f) = s := by
    unfold Vm.setPhys
    rw [update_eq_self]
  have h := blockDescLoop_kernel hv hw descCnt uBlockDesc 16 (s.phys f) (by decide)
  rw [hself] at h
  exact h

/-! ## One process more -/

/-- A directory without pages is added to the live ones. -/
theorem Frames.addSpace (h : Frames L quits s) (hc : L c = none) (hv : kHeapStart ≤ v)
    (hd : refs L s (.kernel v) = some d) (hdir : ∀ q, L q ≠ some d)
    (hz : ∀ i, i < 768 → pdeAt s.phys d i = 0) :
    Frames (update L c (some d)) quits s ∧ entries (update L c (some d)) s = entries L s := by
  have hent : entries (update L c (some d)) s = entries L s := by
    funext r
    cases r with
    | kernel u => rfl
    | pde q i =>
      by_cases hq : q = c
      · subst hq
        rw [(entries_dead (v := 0) hc).1]
        simp only [entries, update_self, Option.bind_some]
        split
        · rename_i hi
          rw [hz i hi]
          rfl
        · rfl
      · simp only [entries, update_of_ne hq]
    | pte q u =>
      by_cases hq : q = c
      · subst hq
        rw [(entries_dead (i := 0) hc).2]
        simp only [entries, update_self, Option.bind_some]
        split
        · rename_i hu
          have hi : u / 1024 < 768 := by have := hu.1; unfold kernelBase at this; omega
          rw [hz _ hi] at hu
          exact absurd hu.2 (by decide)
        · rfl
      · simp only [entries, update_of_ne hq]
  refine ⟨?_, hent⟩
  unfold Frames
  rw [hent]
  refine ⟨h.base, h.split, h.top, ⟨h.ok.fin, h.ok.home, h.ok.shared, fun p e he => ?_, fun p q e hp hq => ?_⟩,
    h.bal, h.bits, h.cell, h.flags⟩
  · by_cases hpc : p = c
    · subst hpc
      rw [update_self] at he
      cases he
      exact ⟨v, hv, hd⟩
    · rw [update_of_ne hpc] at he
      exact h.ok.dir p e he
  · by_cases hpc : p = c
    · subst hpc
      rw [update_self] at hp
      cases hp
      by_cases hqc : q = p
      · exact hqc.symm
      · rw [update_of_ne hqc] at hq
        exact absurd hq (hdir q)
    · rw [update_of_ne hpc] at hp
      by_cases hqc : q = c
      · subst hqc
        rw [update_self] at hq
        cases hq
        exact absurd hp (hdir p)
      · rw [update_of_ne hqc] at hq
        exact h.ok.inj p q e hp hq

theorem alive_add (h : Set.Finite {p | L p ≠ none}) (c d : Nat) : alive (update L c (some d)) ≤ alive L + 1 := by
  refine le_trans (Set.ncard_le_ncard (t := insert c {p | L p ≠ none}) ?_ (h.insert c)) (Set.ncard_insert_le _ _)
  intro p hp
  by_cases hpc : p = c
  · exact .inl hpc
  · have hp' : update L c (some d) p ≠ none := hp
    rw [update_of_ne hpc] at hp'
    exact .inr hp'

/-- The pages of a process that is made in the order PCB, bitmap, directory. -/
theorem newParts (hc : Fresh L s s₁ c 1) (hb : Fresh L s s' t.userprogVaddr.bits bitmapPgCnt)
    (hd : Fresh L s s' t.pgdir 1) (hbc : ∀ k, k < bitmapPgCnt → c ≠ t.userprogVaddr.bits + k)
    (hdc : c ≠ t.pgdir) (hdb : ∀ k, k < bitmapPgCnt → t.userprogVaddr.bits + k ≠ t.pgdir) :
    (∀ a v, t.part c a = some v → kHeapStart ≤ v ∧ entries L s (.kernel v) = none) ∧
      ∀ a b v, t.part c a = some v → t.part c b = some v → a = b := by
  have hpart : ∀ a v, t.part c a = some v → (a = .pcb ∧ v = c) ∨ (a = .dir ∧ v = t.pgdir) ∨
      ∃ k, a = .map k ∧ k < bitmapPgCnt ∧ v = t.userprogVaddr.bits + k := by
    intro a v ha
    cases a with
    | pcb =>
      cases ha
      exact .inl ⟨rfl, rfl⟩
    | dir =>
      simp only [TaskStruct.part] at ha
      split at ha
      · cases ha
      · cases ha
        exact .inr (.inl ⟨rfl, rfl⟩)
    | map k =>
      simp only [TaskStruct.part] at ha
      split at ha
      · rename_i hk
        cases ha
        exact .inr (.inr ⟨k, rfl, hk.2, rfl⟩)
      · cases ha
  have hheapb := hb.heap
  refine ⟨fun a v ha => ?_, fun a b v ha hb => ?_⟩
  · rcases hpart a v ha with ⟨-, rfl⟩ | ⟨-, rfl⟩ | ⟨k, -, hk, rfl⟩
    · exact ⟨hc.heap, hc.old 0 (by decide)⟩
    · exact ⟨hd.heap, hd.old 0 (by decide)⟩
    · exact ⟨by omega, hb.old k hk⟩
  · rcases hpart a v ha with ⟨rfl, rfl⟩ | ⟨rfl, rfl⟩ | ⟨k, rfl, hk, rfl⟩
    · rcases hpart b _ hb with ⟨rfl, -⟩ | ⟨-, he⟩ | ⟨j, -, hj, he⟩
      · rfl
      · exact absurd he hdc
      · exact absurd he (hbc j hj)
    · rcases hpart b _ hb with ⟨-, he⟩ | ⟨rfl, -⟩ | ⟨j, -, hj, he⟩
      · exact absurd he.symm hdc
      · rfl
      · exact absurd he.symm (hdb j hj)
    · rcases hpart b _ hb with ⟨-, he⟩ | ⟨-, he⟩ | ⟨j, rfl, -, he⟩
      · exact absurd he.symm (hbc k hk)
      · exact absurd he (hdb k hk)
      · rw [show k = j by omega]

/-- A page that was not there is no part of a process. -/
theorem Sound.not_part (h : Sound L s) {a : Part} (hv : kHeapStart ≤ v) (hno : entries L s (.kernel v) = none) :
    s.part p a ≠ some v := by
  intro hp
  obtain ⟨f, hf⟩ := h.part_heap hp hv
  rw [refs_eq_none.2 hno] at hf
  cases hf

/-- The child's space is new, the others are the same. -/
theorem Sound.spaces_add (h : Sound L s)
    (hker : ∀ u w, entries L s (.kernel u) = some w → entries (update L c (some d)) s' (.kernel u) = some w)
    (htasks : ∀ p, p ≠ c → s'.tasks p = s.tasks p) (ht : s'.tasks c = some t) (hl : t.live = true)
    (hd : refs (update L c (some d)) s' (.kernel t.pgdir) = some d) : s'.spaces = update L c (some d) := by
  funext p
  by_cases hp : p = c
  · rw [hp, update_self]
    exact spaces_eq_some.2 ⟨t, ht, hl, (refs_kernel.1 hd).2⟩
  · rw [update_of_ne hp, ← h.live]
    unfold Vm.spaces
    rw [htasks p hp]
    cases htp : s.tasks p with
    | none => rfl
    | some u =>
      simp only [Option.bind_some]
      by_cases hul : u.live = true
      · rw [if_pos hul, if_pos hul]
        obtain ⟨-, f, hf⟩ := h.live_ref htp hul (part_dir htp (TaskStruct.live_pgdir hul))
        obtain ⟨w, hw, -⟩ := refs_eq_some.1 hf
        rw [(entries_kernel.1 hw).2, (entries_kernel.1 (hker _ w hw)).2]
      · rw [if_neg hul, if_neg hul]

theorem Sound.addProcess (h : Sound L s) (hfew : alive L + 1 < 256) (hf : Frames (update L c (some d)) quits s')
    (hk : KernelBits s') (hroom : s'.kernelVaddr.size = s.kernelVaddr.size)
    (hker : ∀ u w, entries L s (.kernel u) = some w → entries (update L c (some d)) s' (.kernel u) = some w)
    (htasks : ∀ p, p ≠ c → s'.tasks p = s.tasks p) (ht : s'.tasks c = some t) (hl : t.live = true)
    (hd : refs (update L c (some d)) s' (.kernel t.pgdir) = some d)
    (hnew : ∀ a v, t.part c a = some v → kHeapStart ≤ v ∧ entries L s (.kernel v) = none)
    (hpres : ∀ a v, t.part c a = some v → present (s'.kernelPte v) = true)
    (hinj : ∀ a b v, t.part c a = some v → t.part c b = some v → a = b)
    (huser : ∀ p u, s'.tasks p = some u → u.live = true → UserSpace (update L c (some d)) s' p u.userprogVaddr)
    (hcow : Cow (update L c (some d)) s') (hcur : s'.cur = s.cur) (hcr3 : s'.cr3 = s.cr3) (hne : s.cur ≠ c) :
    Sound (update L c (some d)) s' := by
  have hold : ∀ p a, p ≠ c → s'.part p a = s.part p a := fun p a hp => by
    unfold Vm.part
    rw [htasks p hp]
  have hcp : ∀ a, s'.part c a = t.part c a := fun a => by
    unfold Vm.part
    rw [ht]
    rfl
  have hcross : ∀ p a b v, p ≠ c → s'.part p a = some v → s'.part c b ≠ some v := by
    intro p a b v hp ha hb
    rw [hold p a hp] at ha
    rw [hcp] at hb
    obtain ⟨hv, hno⟩ := hnew b v hb
    exact h.not_part hv hno ha
  have hmain : c ≠ mainThread := by
    rintro rfl
    exact absurd (hnew .pcb mainThread rfl).1 (by decide)
  refine ⟨hf, ?_, hk, by rw [hroom]; exact h.room, ?_, h.spaces_add hker htasks ht hl hd, fun p a v hp => ?_,
    fun u hu => ?_, fun p q a b v hp hq => ?_, huser, hcow, fun u hu hul => ?_⟩
  · have := alive_add h.frames.ok.finite_live c d
    omega
  · exact (entries_kernel.1 (hker _ _ (entries_kernel.2 ⟨h.top, rfl⟩))).1
  · by_cases hpc : p = c
    · rw [hpc, hcp] at hp
      exact .inr ⟨(hnew a v hp).1, hpres a v hp⟩
    · rw [hold p a hpc] at hp
      rcases h.mapped p a v hp with hm | ⟨hv, hpr⟩
      · exact .inl hm
      · exact .inr ⟨hv, (entries_kernel.1 (hker v _ (entries_kernel.2 ⟨hpr, rfl⟩))).1⟩
  · rw [htasks _ (Ne.symm hmain)] at hu
    exact h.main u hu
  · by_cases hpc : p = c
    · by_cases hqc : q = c
      · subst hpc
        subst hqc
        rw [hcp] at hp hq
        exact ⟨rfl, hinj a b v hp hq⟩
      · subst hpc
        exact absurd hp (hcross q b a v hqc hq)
    · by_cases hqc : q = c
      · subst hqc
        exact absurd hq (hcross p a b v hpc hp)
      · rw [hold p a hpc] at hp
        rw [hold q b hqc] at hq
        exact h.own p q a b v hp hq
  · rw [hcur] at hu ⊢
    rw [htasks _ hne] at hu
    rw [hcr3, update_of_ne hne]
    exact h.inUse u hu hul

end

end Enix.Memory
