import Enix.Memory.CopyTables

/-!
# `sys_fork`

`Sound.sysFork`: while `kernel_vaddr` has room for the child's bitmap, the child
has a copy of the parent's bitmap and shares all its pages, and the invariant
holds with the child's space added.

When there is no room, `copy_pcb_vaddrbitmap_stack0` returns -1; `copy_process`
compares with 1, goes on, and the child keeps the parent's bitmap.
-/
set_option autoImplicit false

namespace Enix.Memory
open Enix.Core Enix.Kernel Function

/-- `kernel_vaddr` has a run of clear bits for a bitmap, besides the first clear
bit. -/
def Vm.bitmapRoom (s : Vm) : Bool :=
  match s.kernelVaddr.scan 1 with
  | some i => (s.kernelVaddr.set i.toNat true).scan bitmapPgCnt != some (-1)
  | none => true

/-- The child's record before it has a directory. -/
def TaskStruct.copied (t : TaskStruct) (pid : Int) (b : Nat) : TaskStruct :=
  { t with
    pid := pid, status := .ready, parentPid := t.pid, name := t.name ++ forkSuffix,
    userprogVaddr := { t.userprogVaddr with bits := b } }

/-- The pid was free, and no other has been taken. -/
def NewPid (s s' : Vm) (pid : Int) : Prop :=
  ∃ i : Nat, s.pidBitmap.bit i = false ∧ pid = i + 1 ∧ s'.pidBitmap = s.pidBitmap.set i true

/-- Process `p` has a child `c`, with directory `d` and record `tc`. -/
structure HasForked (L : Spaces) (s s' : Vm) (p c d : Nat) (t tc : TaskStruct) : Prop extends
    Vm.SamePools s s' where
  unborn : s.tasks c = none
  record : s'.tasks c = some tc
  others : ∀ q, q ≠ c → s'.tasks q = s.tasks q
  copied : ∃ pid, tc = { t.copied pid tc.userprogVaddr.bits with pgdir := tc.pgdir }
  newPid : NewPid s s' tc.pid
  parts : ∀ a v, tc.part c a = some v → kHeapStart ≤ v ∧ entries L s (.kernel v) = none
  parent : ∀ v, entries (update L c (some d)) s' (.pte p v) = (refs L s (.pte p v)).map (· * 4096 + pgRo)
  child : ∀ v, entries (update L c (some d)) s' (.pte c v) = (refs L s (.pte p v)).map (· * 4096 + pgRo)
  page : ∀ q v, q ≠ p → q ≠ c → entries (update L c (some d)) s' (.pte q v) = entries L s (.pte q v)
  kernel : ∀ u w, entries L s (.kernel u) = some w → entries (update L c (some d)) s' (.kernel u) = some w
  phys : ∀ g r, refs L s r = some g → Plain L s g → s'.phys g = s.phys g
  descs : ∃ f x, refs (update L c (some d)) s' (.kernel c) = some f ∧
    s'.phys f = descBytes (4096 * c) x uBlockDesc 16 descCnt
  threadAllList : s'.threadAllList = s.threadAllList ++ [c]
  cur : s'.cur = s.cur
  cr3 : s'.cr3 = s.cr3

/-- Child `c` of process `p` has its record, a copy of the bitmap and a
directory without pages. -/
structure Born (L : Spaces) (s s' : Vm) (p c d : Nat) (t tc : TaskStruct) : Prop where
  kept : Kept L c s s'
  frames : Frames (update L c (some d)) quits s'
  entries : entries (update L c (some d)) s' = entries L s'
  forking : Forking (update L c (some d)) s' c p d tc t
  live : tc.live = true
  copied : ∃ pid, tc = { t.copied pid tc.userprogVaddr.bits with pgdir := tc.pgdir }
  parts : ∀ a v, tc.part c a = some v → kHeapStart ≤ v ∧ Memory.entries L s (.kernel v) = none
  inj : ∀ a b v, tc.part c a = some v → tc.part c b = some v → a = b
  mapped : ∀ a v, tc.part c a = some v → ∃ f, refs L s' (.kernel v) = some f ∧ ∀ r, refs L s r ≠ some f
  bits : ∀ k, k < bitmapPgCnt → ∃ f g, refs L s' (.kernel (tc.userprogVaddr.bits + k)) = some f ∧
    refs L s (.kernel (t.userprogVaddr.bits + k)) = some g ∧ s'.phys f = s.phys g
  descs : ∃ f x, refs L s' (.kernel c) = some f ∧ s'.phys f = descBytes (4096 * c) x uBlockDesc 16 descCnt

section
variable {L L' : Spaces} {s s₀ s₁ s' : Vm} {tc tp t : TaskStruct} {u : VirtualAddr} {r : Ref} {pid : Int}
  {T : Nat → Option TaskStruct} {a c e f g i j k l m n p q v w x d b dst src : Nat}

/-! ## Copying the record and the bitmap -/

/-- `memcpy` between pages of the kernel. -/
theorem copyPages_kernel : ∀ n dst src s, Frames L quits s → kHeapStart ≤ dst → kHeapStart ≤ src →
    (∀ k j, k < n → j < n → src + k ≠ dst + j) →
    (∀ k, k < n → ∃ g, refs L s (.kernel (src + k)) = some g) →
    (∀ k, k < n → ∃ f, refs L s (.kernel (dst + k)) = some f ∧ Plain L s f) →
    runs (fun _ => False) (copyPages dst src n) (fun _ s' => Stored L s s' ∧
      (∀ k f g, k < n → refs L s (.kernel (dst + k)) = some f → refs L s (.kernel (src + k)) = some g →
        s'.phys f = s.phys g) ∧
      ∀ g, (∀ k, k < n → refs L s (.kernel (dst + k)) ≠ some g) → s'.phys g = s.phys g) s := by
  intro n
  induction n with
  | zero =>
    intro dst src s _ _ _ _ _ _
    exact ⟨Stored.refl L s, fun k f g hk => absurd hk (Nat.not_lt_zero k), fun _ _ => rfl⟩
  | succ n ih =>
    intro dst src s h hdst hsrc hne hs hd
    obtain ⟨g, hg⟩ := hs 0 (by omega)
    obtain ⟨f, hf, hpl⟩ := hd 0 (by omega)
    have hkd := heap_kernel hdst
    have hks := heap_kernel hsrc
    have hst : Stored L s (s.setPhys f (s.phys g)) := Stored.setPhys hpl _
    -- a source page is on another frame than the first destination
    have hsf : ∀ k g', k < n + 1 → refs L s (.kernel (src + k)) = some g' → g' ≠ f := by
      rintro k g' hk hg' rfl
      have he := h.ok.kernel_only h.kernel_base (by omega) hf hg'
      injection he with he
      exact hne k 0 hk (by omega) he
    unfold copyPages
    rw [runs_bind_ok (copyPage_run (by rw [walk_kernel (L := L) hks]; exact hg)
      (by rw [walk_kernel (L := L) hkd]; exact hf))]
    refine runs_post (ih (dst + 1) (src + 1) _ (hst.frames h) (by omega) (by omega)
      (fun k j hk hj he => hne (k + 1) (j + 1) (by omega) (by omega) (by omega)) (fun k hk => ?_) fun k hk => ?_) ?_
    · obtain ⟨g', hg'⟩ := hs (k + 1) (by omega)
      exact ⟨g', by rw [hst.refs, show src + 1 + k = src + (k + 1) by omega]; exact hg'⟩
    · obtain ⟨f', hf', hpl'⟩ := hd (k + 1) (by omega)
      exact ⟨f', by rw [hst.refs, show dst + 1 + k = dst + (k + 1) by omega]; exact hf', hst.plain hpl'⟩
    · rintro - s' ⟨hst', hcopy, ho⟩
      rw [hst.refs] at hcopy ho
      refine ⟨hst.trans hst', fun k f' g' hk hf' hg' => ?_, fun x hx => ?_⟩
      · cases k with
        | zero =>
          rw [Nat.add_zero] at hf' hg' hf hg
          rw [hf] at hf'
          rw [hg] at hg'
          cases hf'
          cases hg'
          rw [ho f fun j hj hjf => ?_, phys_setPhys_self]
          have he := h.ok.kernel_only h.kernel_base hdst hf hjf
          injection he
          omega
        | succ k =>
          rw [hcopy k f' g' (by omega) (by rwa [show dst + 1 + k = dst + (k + 1) by omega])
            (by rwa [show src + 1 + k = src + (k + 1) by omega]), phys_setPhys_ne (hsf (k + 1) g' hk hg')]
      · have hxf : x ≠ f := fun he => hx 0 (by omega) (by rw [he]; exact hf)
        rw [ho x fun k hk hxk => hx (k + 1) (by omega) (by rwa [show dst + (k + 1) = dst + 1 + k by omega]),
          phys_setPhys_ne hxf]

theorem refs_congr (hph : s'.phys = s.phys) (hk : s'.kernelPte = s.kernelPte) : refs L s' = refs L s := by
  unfold refs
  rw [entries_congr hph hk]

theorem allocatePid_spec : runs OutOfMemory allocatePid (fun r s' =>
    ∃ i : Nat, s.pidBitmap.bit i = false ∧ r = i + 1 ∧ s' = { s with pidBitmap := s.pidBitmap.set i true }) s := by
  unfold allocatePid
  rw [runs_read_bind]
  cases hscan : s.pidBitmap.scan 1 with
  | none => exact .inl rfl
  | some i =>
    obtain ⟨n, rfl, -, hc⟩ := Bitmap.scan_one_lt hscan
    exact ⟨n, hc, rfl, rfl⟩

/-- The stops of `sys_fork` of a process with record `t`: no memory, or a name
that would be too long. -/
def ForkStop (t : TaskStruct) (x : Stop) : Prop := OutOfMemory x ∨ x = .assertion .forkName ∧ 16 ≤ t.name.length

/-- The child's record when there is no room for a bitmap. -/
def TaskStruct.unmapped (t : TaskStruct) (pid : Int) : TaskStruct :=
  { t with pid := pid, status := .ready, parentPid := t.pid }

/-- Child `c` of a process with record `t` has its record, and its heap is empty;
the bitmap is still that of the parent. -/
structure Recorded (L : Spaces) (s₀ s s' : Vm) (c : Nat) (t : TaskStruct) (pid : Int) : Prop where
  kept : Kept L c s₀ s'
  newPid : NewPid s s' pid
  pidLeft : s.pidBitmap.scan 1 ≠ none
  refs : Memory.refs L s' = Memory.refs L s
  record : s'.tasks c = some (t.unmapped pid)
  kernelVaddr : s'.kernelVaddr = s.kernelVaddr
  kernelPool : s'.kernelPool = s.kernelPool
  userPool : s'.userPool = s.userPool
  descs : ∃ f x, Memory.refs L s' (.kernel c) = some f ∧ s'.phys f = descBytes (4096 * c) x uBlockDesc 16 descCnt

/-- The part of `copy_pcb_vaddrbitmap_stack0` before it asks for the bitmap. -/
theorem copyPcb_head {E : Stop → Prop} {Q : Int → Vm → Prop} (h : Kept L c s₀ s) (hc : Fresh L s₀ s c 1)
    (ht : s₀.tasks p = some t) (hpc : p ≠ c) (hp : kHeapStart ≤ p) (hpf : ∃ f, refs L s₀ (.kernel p) = some f)
    (hpid : s.pidBitmap.scan 1 = none → E (.assertion .bitmapScan))
    (hrest : ∀ pid s', Recorded L s₀ s s' c t pid → runs E (do
      match ← getKernelPages bitmapPgCnt with
      | none => pure (-1)
      | some b =>
        copyPages b t.userprogVaddr.bits bitmapPgCnt
        Cmd.guard (t.name.length < 16) (.assertion .forkName)
        Cmd.change (·.setTask c (some { t with
          pid := pid, status := .ready, parentPid := t.pid, name := t.name ++ forkSuffix,
          userprogVaddr := { t.userprogVaddr with bits := b } }))
        pure 0) Q s') :
    runs E (copyPcbVaddrbitmapStack0 c p) Q s := by
  obtain ⟨fp, hfp⟩ := hpf
  obtain ⟨fc, hfc, -, hfcun⟩ := hc.new 0 (by decide)
  rw [Nat.add_zero] at hfc
  have hkc := heap_kernel hc.heap
  have hwp : s.walk p = some fp := by
    rw [walk_kernel (L := L) (heap_kernel hp)]
    exact h.refs_of hfp
  have hwc : s.walk c = some fc := by rw [walk_kernel (L := L) hkc, hfc]
  unfold copyPcbVaddrbitmapStack0
  rw [runs_bind_ok (copyPage_run hwp hwc)]
  -- the page of the record
  obtain ⟨h₂, hst₂⟩ := h.store hc (by decide : 0 < 1) hfc (s.phys fp)
  have hc₂ : Fresh L s₀ (s.setPhys fc (s.phys fp)) c 1 := hc.keep fun u f hu => by rw [hst₂.refs]; exact hu
  have hrefs₂ : refs L (s.setPhys fc (s.phys fp)) = refs L s := hst₂.refs
  have hsame₂ : (s.setPhys fc (s.phys fp)).kernelVaddr = s.kernelVaddr ∧
    (s.setPhys fc (s.phys fp)).pidBitmap = s.pidBitmap ∧ (s.setPhys fc (s.phys fp)).kernelPool = s.kernelPool ∧
    (s.setPhys fc (s.phys fp)).userPool = s.userPool := ⟨rfl, rfl, rfl, rfl⟩
  generalize s.setPhys fc (s.phys fp) = s₂ at *
  obtain ⟨hkv₂, hpb₂, hkp₂, hup₂⟩ := hsame₂
  rw [runs_bind_ok (task_run (by rw [h₂.tasks p hpc]; exact ht))]
  -- a pid
  unfold allocatePid
  simp only [runs_bind, runs_read]
  cases hscan : s₂.pidBitmap.scan 1 with
  | none => exact hpid (by rw [← hpb₂]; exact hscan)
  | some k =>
    obtain ⟨i, rfl, -, hi⟩ := Bitmap.scan_one_lt hscan
    rw [get_some, runs_pure, runs_change, runs_pure, runs_change, Int.toNat_natCast]
    rw [hpb₂] at hi
    generalize hs₄ : ({ s₂ with pidBitmap := s₂.pidBitmap.set i true } : Vm).setTask c _ = s₄
    have hpb₄ : s₄.pidBitmap = s.pidBitmap.set i true := by rw [← hpb₂, ← hs₄]; rfl
    have h₄ : Kept L c s₀ s₄ := h₂.record (by rw [← hs₄]; rfl) (by rw [← hs₄]; rfl) (by rw [← hs₄]; rfl)
      (by rw [← hs₄]; rfl) (by rw [← hs₄]; rfl) (by rw [← hs₄]; rfl) (by rw [← hs₄]; rfl) (by rw [← hs₄]; rfl)
      (by rw [← hs₄]; rfl) fun q hq => by rw [← hs₄]; exact update_of_ne hq ..
    have hrefs₄ : refs L s₄ = refs L s :=
      (refs_congr (by rw [← hs₄]; rfl) (by rw [← hs₄]; rfl)).trans hrefs₂
    have hkv₄ : s₄.kernelVaddr = s.kernelVaddr := by rw [← hkv₂, ← hs₄]; rfl
    have hkp₄ : s₄.kernelPool = s.kernelPool := by rw [← hkp₂, ← hs₄]; rfl
    have hup₄ : s₄.userPool = s.userPool := by rw [← hup₂, ← hs₄]; rfl
    have ht₄ : s₄.tasks c = some (t.unmapped (i + 1)) := by rw [← hs₄]; exact update_self ..
    have hc₄ : Fresh L s₀ s₄ c 1 := hc.keep fun u f hu => by rw [hrefs₄]; exact hu
    have hfc₄ : refs L s₄ (.kernel c) = some fc := by rw [hrefs₄]; exact hfc
    -- the heap
    rw [runs_ok (blockDescInit_kernel hkc (by rw [walk_kernel (L := L) hkc]; exact hfc₄))]
    obtain ⟨h₅, hst₅⟩ := h₄.store hc₄ (by decide : 0 < 1) hfc₄
      (descBytes (4096 * c) (s₄.phys fc) uBlockDesc 16 descCnt)
    refine runs_bind.1 (hrest (i + 1) _ ⟨h₅, ⟨i, hi, rfl, hst₅.rest.pidBitmap.trans hpb₄⟩,
      by rw [← hpb₂, hscan]; simp, hst₅.refs.trans hrefs₄,
      (congrFun hst₅.rest.tasks c).trans ht₄, hst₅.kernelVaddr.trans hkv₄, hkp₄, hup₄, fc, s₄.phys fc, ?_, ?_⟩)
    · rw [hst₅.refs]
      exact hfc₄
    · exact phys_setPhys_self

theorem Recorded.newPid_lt (hr : Recorded L s₀ s s' c t pid) : pid ≠ -1 := by
  obtain ⟨i, -, hi, -⟩ := hr.newPid
  omega

/-- What is left after the record. -/
theorem Recorded.has (hr : Recorded L s₀ s s' c t pid) (hh : Has T a x q (1 + l) s) : Has s'.tasks a x q l s' := by
  obtain ⟨i, hi, -, hpb⟩ := hr.newPid
  refine ⟨rfl, fun f hf => hh.small f ?_, ?_, ?_, ?_, ?_⟩
  · unfold Vm.Pooled Vm.Holds Vm.pool at hf ⊢
    rwa [hr.kernelPool, hr.userPool] at hf
  · rw [hr.kernelPool]
    exact hh.kernel
  · rw [hr.userPool]
    exact hh.user
  · rw [hr.kernelVaddr]
    exact hh.pages
  · have hle := Bitmap.free_set_le s.pidBitmap i true
    have hp := hh.pids
    rw [hpb]
    omega

/-- `allocate_pid` finds a pid. -/
theorem Has.pid_found (hh : Has T a x q (1 + l) s) : s.pidBitmap.scan 1 ≠ none := by
  have hpos := hh.pids
  obtain ⟨i, hi, hbit⟩ := Bitmap.exists_of_free_pos (b := s.pidBitmap) (by omega)
  obtain ⟨j, hj, -⟩ := Bitmap.scan_one hi hbit
  rw [hj]
  simp

/-- Record and bitmap are copied, and the heap of the child is empty. -/
theorem copyPcb_within {B : Prop} (h : Kept L c s₀ s) (hc : Fresh L s₀ s c 1) (ht : s₀.tasks p = some t)
    (hpc : p ≠ c) (hp : kHeapStart ≤ p) (hpf : ∃ f, refs L s₀ (.kernel p) = some f)
    (hb : kHeapStart ≤ t.userprogVaddr.bits)
    (hbits : ∀ k, k < bitmapPgCnt → ∃ f, refs L s₀ (.kernel (t.userprogVaddr.bits + k)) = some f)
    (hroom : s.kernelVaddr.scan bitmapPgCnt ≠ some (-1))
    (hB : B → Has T (bitmapPgCnt + a) x q (1 + l) s ∧ s.finds bitmapPgCnt e) :
    runs (fun y => ForkStop t y ∧ (B → Enough y)) (copyPcbVaddrbitmapStack0 c p) (fun r s' => r = 0 ∧ ∃ pid b,
      Kept L c s₀ s' ∧ NewPid s s' pid ∧ (∀ u f, refs L s (.kernel u) = some f → refs L s' (.kernel u) = some f) ∧
      (Fresh L s₀ s' b bitmapPgCnt ∧ ∀ k, k < bitmapPgCnt → c ≠ b + k) ∧ s'.tasks c = some (t.copied pid b) ∧
      (∀ k f g, k < bitmapPgCnt → refs L s' (.kernel (b + k)) = some f →
        refs L s₀ (.kernel (t.userprogVaddr.bits + k)) = some g → s'.phys f = s₀.phys g) ∧
      (∃ fc x, refs L s' (.kernel c) = some fc ∧ s'.phys fc = descBytes (4096 * c) x uBlockDesc 16 descCnt) ∧
      (∃ j : Nat, s.kernelVaddr.scan bitmapPgCnt = some (j : Int) ∧
        s'.kernelVaddr = setRange s.kernelVaddr true j bitmapPgCnt) ∧
      (B → Has s'.tasks a x e l s')) s := by
  refine copyPcb_head h hc ht hpc hp hpf (fun hn => ⟨.inl (.inl rfl), fun hB' => absurd hn (hB hB').1.pid_found⟩)
    fun pid s₅ hr => ?_
  have hhas : B → Has s₅.tasks (bitmapPgCnt + a) x q l s₅ := fun hb' => hr.has (hB hb').1
  obtain ⟨h₅, ⟨i, hi, hpid, hpb₅⟩, -, hrefs₅, ht₅, hkv₅, -, -, fc, x₀, hfc₅, hx⟩ := hr
  -- the pages of the bitmap
  refine runs_seq (runs_within (B := B) (runs_mono (getPages_kept h₅.frames h₅.kernelBits c (by decide : 0 < bitmapPgCnt)
    (by decide)) (fun _ => .inl) fun _ _ hq => hq) fun hb' => getKernelPages_found (hhas hb') fun _ => by
      obtain ⟨j, hj, m, hm, hl⟩ := (hB hb').2
      exact ⟨j, by rw [hkv₅]; exact hj, m, by rw [hkv₅]; exact hm, by rw [hkv₅]; exact hl⟩) ?_
  rintro _ s₆ ⟨⟨-, rfl, hscan⟩ | ⟨b, rfl, hk₆, hf₆, ht₆, hg₆⟩, hbud₆⟩
  · rw [hkv₅] at hscan
    exact absurd hscan hroom
  have h₆ : Kept L c s₀ s₆ := h₅.got hg₆
  have hb₆ : Fresh L s₀ s₆ b bitmapPgCnt := hf₆.since h₅
  have hker₆ : ∀ u f, refs L s (.kernel u) = some f → refs L s₆ (.kernel u) = some f := fun u f hu =>
    hk₆.refs_of (by rw [hrefs₅]; exact hu)
  have hsrc : ∀ k j, k < bitmapPgCnt → j < bitmapPgCnt → t.userprogVaddr.bits + k ≠ b + j := by
    intro k j hk hj
    obtain ⟨f, hf⟩ := hbits k hk
    exact hb₆.disjoint hj hf
  simp only
  refine runs_seq (runs_within (B := B) (runs_mono (copyPages_kernel bitmapPgCnt b t.userprogVaddr.bits s₆ h₆.frames
    hf₆.heap hb hsrc (fun k hk => ?_) fun k hk => ?_) (fun _ hE => hE.elim) fun _ _ hq => hq) fun hb' =>
      (copyPages_costs bitmapPgCnt b t.userprogVaddr.bits).free (hbud₆ hb').2) ?_
  · obtain ⟨f, hf⟩ := hbits k hk
    exact ⟨f, h₆.refs_of hf⟩
  · obtain ⟨f, hf, -, hun⟩ := hb₆.new k hk
    refine ⟨f, hf, h₆.frames.plain_kernel hf fun q hq => ?_⟩
    obtain ⟨w, -, hw⟩ := h₆.start.ok.dir q f hq
    exact hun _ hw
  rintro - s₇ ⟨⟨hst₇, hcopy, ho⟩, hbud₇⟩
  refine runs_guard_bind (fun hn => ⟨.inr ⟨rfl, by omega⟩, fun _ => enough_assertion (by decide)⟩) fun _ => ?_
  rw [runs_change_bind, runs_pure]
  -- the frames that were copied to are new
  have hphys : ∀ g r, refs L s₀ r = some g → s₇.phys g = s₀.phys g := by
    intro g r hr
    rw [ho g fun k hk hkg => ?_, h₆.phys g r hr]
    obtain ⟨f, hf, -, hun⟩ := hb₆.new k hk
    rw [hkg] at hf
    cases hf
    exact hun r hr
  have h₇ : Kept L c s₀ s₇ := by
    refine ⟨h₆.toSamePools.trans hst₇.rest.toSamePools, h.start, hst₇.rest.cr3.trans h₆.cr3,
      hst₇.rest.cur.trans h₆.cur, hst₇.rest.threadAllList.trans h₆.threadAllList,
      fun q hq => by rw [hst₇.rest.tasks, h₆.tasks q hq], by rw [hst₇.kernelVaddr, h₆.room], fun u w hw => ?_,
      fun r hr => ?_, hphys, hst₇.frames h₆.frames, hst₇.bits h₆.kernelBits⟩
    · rw [hst₇.entries]
      exact h₆.kernel u w hw
    · rw [hst₇.entries, h₆.user r hr]
  have hcb : ∀ k, k < bitmapPgCnt → refs L s₆ (.kernel (b + k)) ≠ some fc := by
    intro k hk hkc'
    have he := h₆.frames.ok.kernel_only h₆.frames.kernel_base hc.heap (hk₆.refs_of hfc₅) hkc'
    injection he with he
    exact hf₆.disjoint hk (p := c) hfc₅ he.symm
  obtain ⟨j, hj, -, hkv₆⟩ := hg₆.run
  rw [hkv₅] at hj hkv₆
  have hkv₇ : s₇.kernelVaddr = setRange s.kernelVaddr true j bitmapPgCnt := hst₇.kernelVaddr.trans hkv₆
  generalize hs₈ : s₇.setTask c _ = s₈
  have hph₈ : s₈.phys = s₇.phys := by rw [← hs₈]; rfl
  have hrefs₈ : refs L s₈ = refs L s₆ :=
    (refs_congr (by rw [← hs₈]; rfl) (by rw [← hs₈]; rfl)).trans hst₇.refs
  refine ⟨rfl, pid, b, h₇.record (by rw [← hs₈]; rfl) (by rw [← hs₈]; rfl) (by rw [← hs₈]; rfl)
    (by rw [← hs₈]; rfl) (by rw [← hs₈]; rfl) (by rw [← hs₈]; rfl) (by rw [← hs₈]; rfl) (by rw [← hs₈]; rfl)
    (by rw [← hs₈]; rfl) (fun q hq => by rw [← hs₈]; exact update_of_ne hq ..), ⟨i, hi, hpid, ?_⟩, fun u f hu => ?_,
    ⟨?_, ?_⟩, ?_, ?_, ⟨fc, x₀, ?_, ?_⟩, ⟨j, hj, by rw [← hkv₇, ← hs₈]; rfl⟩, fun hb' => ?_⟩
  · rw [← hpb₅, ← hg₆.rest.pidBitmap, ← hst₇.rest.pidBitmap, ← hs₈]
    rfl
  · rw [hrefs₈]
    exact hker₆ u f hu
  · exact hb₆.keep fun u f hu => by rw [hrefs₈]; exact hu
  · exact fun k hk => hf₆.disjoint hk hfc₅
  · rw [← hs₈]
    exact update_self ..
  · intro k f g hk hf hg
    rw [hph₈]
    rw [hrefs₈] at hf
    rw [hcopy k f g hk hf (h₆.refs_of hg), h₆.phys g _ hg]
  · rw [hrefs₈]
    exact hk₆.refs_of hfc₅
  · rw [hph₈, ho fc hcb, hg₆.phys_used hfc₅, hx]
  · rw [← hs₈]
    exact ((hbud₇ hb').setTask c _).self

/-! ## The call -/

/-- After the child's first page there is room for its bitmap. -/
theorem GotPages.bitmapRoom (hg : GotPages L quits s s' v 1) (hroom : s.bitmapRoom = true) :
    s'.kernelVaddr.scan bitmapPgCnt ≠ some (-1) := by
  obtain ⟨i, hscan, -, hkv⟩ := hg.run
  unfold Vm.bitmapRoom at hroom
  rw [hscan] at hroom
  rw [hkv]
  simpa [setRange] using hroom

/-- The child's bitmap is that of the parent, and so are its pages. -/
theorem UserSpace.copy (h : UserSpace L s p u) (hb : kHeapStart ≤ b)
    (hpages : ∀ k, k < bitmapPgCnt → ∃ f g, refs L' s' (.kernel (b + k)) = some f ∧ (∀ q, L' q ≠ some f) ∧
      refs L s (.kernel (u.bits + k)) = some g ∧ s'.phys f = s.phys g)
    (he : ∀ v, entries L' s' (.pte c v) = none ↔ entries L s (.pte p v) = none) :
    UserSpace L' s' c { u with bits := b } where
  heap := hb
  pages k hk := by
    obtain ⟨f, g, hf, hd, -⟩ := hpages k (h.pages_lt (by simp only at hk; omega))
    exact ⟨f, hf, hd⟩
  len := h.len
  start := h.start
  above v hv := h.above v fun hn => hv ((he v).2 hn)
  bit j hj := by
    have hlen := h.len
    obtain ⟨f, g, hf, -, hg, hph⟩ := hpages (j / 8 / 4096) (h.pages_lt (by omega))
    have hbit : (s'.btmp { u with bits := b }).bit j = (s.btmp u).bit j := by
      unfold Bitmap.bit Vm.btmp
      simp only
      rw [(refs_kernel.1 hf).2, (refs_kernel.1 hg).2, hph]
    rw [hbit, h.bit j hj, Ne, Ne, he]

/-- What parent and child share is read-only in both. -/
theorem Forked.cow (h : Forked L c p s s' kernelBase) (hf : Forking L s c p d tc tp) (hc : Cow L s) : Cow L s' := by
  have hro : ∀ {w x}, w < kernelBase → (if w < kernelBase then (refs L s (.pte p w)).map (· * 4096 + pgRo) else none) =
      some x → writable x = false := by
    intro w x hw hx
    rw [if_pos hw, Option.map_eq_some_iff] at hx
    obtain ⟨f, -, rfl⟩ := hx
    unfold writable pgRo
    exact decide_eq_false (by omega)
  intro q v w hw hwr r hr
  obtain ⟨e, -, hv, -⟩ := pde_of_pte hw
  have hqp : q ≠ p := by
    rintro rfl
    rw [h.parent v, if_pos hv] at hw
    rw [hro hv (by rw [if_pos hv]; exact hw)] at hwr
    cases hwr
  have hqc : q ≠ c := by
    rintro rfl
    rw [h.child v] at hw
    rw [hro hv hw] at hwr
    cases hwr
  rw [h.other q v hqp hqc] at hw
  obtain ⟨q', rfl⟩ := h.frames.ok.page_only h.frames.pooled_base
    (refs_eq_some.2 ⟨w, by rw [h.other q v hqp hqc]; exact hw, rfl⟩) hr
  obtain ⟨w', hw', hwf⟩ := refs_eq_some.1 hr
  by_cases hp : q' = p ∨ q' = c
  · -- then the parent's page had the same frame before
    have hpar : refs L s (.pte p v) = some (w / 4096) := by
      have hmap : (refs L s (.pte p v)).map (· * 4096 + pgRo) = some w' := by
        rcases hp with rfl | rfl
        · rw [h.parent v, if_pos hv] at hw'
          exact hw'
        · rw [h.child v, if_pos hv] at hw'
          exact hw'
      rw [Option.map_eq_some_iff] at hmap
      obtain ⟨f, hf, rfl⟩ := hmap
      rw [frame_pgRo] at hwf
      rw [hf, hwf]
    have hcc := hc q v w hw hwr _ hpar
    injection hcc with hcc
    exact absurd hcc.symm hqp
  · rw [h.other q' v (fun he => hp (.inl he)) fun he => hp (.inr he)] at hw'
    exact hc q v w hw hwr _ (refs_eq_some.2 ⟨w', hw', hwf⟩)

theorem Born.refs (hb : Born L s s' p c d t tc) : refs (update L c (some d)) s' = refs L s' := by
  unfold Memory.refs
  rw [hb.entries]

theorem Born.keep (hb : Born L s s' p c d t tc) (hr : Memory.refs L s r = some f) :
    Memory.refs (update L c (some d)) s' r = some f := by
  rw [hb.refs]
  exact hb.kept.refs_of hr

/-- The frame of the child's directory was not in use. -/
theorem Born.unused (hb : Born L s s' p c d t tc) : ∀ r, Memory.refs L s r ≠ some d := by
  obtain ⟨f, hf, hun⟩ := hb.mapped .dir tc.pgdir (by
    simp only [TaskStruct.part, if_neg (TaskStruct.live_pgdir hb.live)])
  have hd := hb.forking.childDir.2
  rw [hb.refs, hf] at hd
  cases hd
  exact hun

/-- Frames that were plain still are. -/
theorem Born.plain (hb : Born L s s' p c d t tc) (hr : Memory.refs L s r = some f) (hp : Plain L s f) :
    Plain (update L c (some d)) s' f := by
  refine ⟨fun q hq => ?_, fun q i hi => hp.2 q i ?_⟩
  · by_cases hqc : q = c
    · rw [hqc, update_self] at hq
      exact hb.unused r (Option.some.inj hq ▸ hr)
    · rw [update_of_ne hqc] at hq
      exact hp.1 q hq
  · rw [hb.refs] at hi
    unfold Memory.refs refsOf at hi ⊢
    rwa [hb.kept.user _ (by simp)] at hi

/-- The child has its directory, and the tables can be copied. -/
theorem Sound.forking (h : Sound L s) (ht : s.tasks s.cur = some t) (hl : t.live = true) {v : Nat}
    (hfew : alive L + 1 < 256) (hc : Fresh L s s₀ c 1) (h₁ : Kept L c s s₁)
    (hv : Fresh L s₁ s' v 1) (h₂ : Kept L c s₁ s') (hd : refs L s' (.kernel v) = some d)
    (hz : ∀ i, i < 768 → pdeAt s'.phys d i = 0) (htc : tc.pgdir = v) :
    Kept L c s (s'.setTask c (some tc)) ∧ Frames (update L c (some d)) quits (s'.setTask c (some tc)) ∧
      entries (update L c (some d)) (s'.setTask c (some tc)) = entries L s' ∧
      Forking (update L c (some d)) (s'.setTask c (some tc)) c s.cur d tc t := by
  have hL := h.inUse t ht hl
  have hu := h.user _ t ht hl
  obtain ⟨hpcb, fp, hfp⟩ := h.live_ref ht hl (part_pcb ht)
  have hpc : s.cur ≠ c := hc.disjoint (k := 0) (by decide) hfp
  have hLc : L c = none := by
    rw [← h.live]
    unfold Vm.spaces
    cases hu' : s.tasks c with
    | none => rfl
    | some u => exact absurd (part_pcb hu') (h.not_part hc.heap (hc.old 0 (by decide)))
  have hkept : Kept L c s (s'.setTask c (some tc)) :=
    (h₁.trans h₂).record rfl rfl rfl rfl rfl rfl rfl rfl rfl fun q hq => update_of_ne hq ..
  have hent' : entries L (s'.setTask c (some tc)) = entries L s' := entries_congr rfl rfl
  have hrefs : refs L (s'.setTask c (some tc)) = refs L s' := refs_congr rfl rfl
  have ht' : (s'.setTask c (some tc)).tasks c = some tc := update_self ..
  have hph : (s'.setTask c (some tc)).phys = s'.phys := rfl
  generalize s'.setTask c (some tc) = s₃ at *
  have hdun : ∀ r, refs L s r ≠ some d := by
    obtain ⟨f, hf, -, hun⟩ := (hv.since h₁).new 0 (by decide)
    rw [Nat.add_zero, hd] at hf
    cases hf
    exact hun
  obtain ⟨hf, hent⟩ := hkept.frames.addSpace hLc hv.heap (by rw [hrefs]; exact hd) (fun q hq => by
    obtain ⟨w, -, hw⟩ := h.frames.ok.dir q d hq
    exact hdun _ hw) (fun i hi => by rw [hph]; exact hz i hi)
  have hrefs' : refs (update L c (some d)) s₃ = refs L s' := by
    rw [← hrefs]
    unfold refs
    rw [hent]
  have hkeep : ∀ {r f}, refs L s r = some f → refs (update L c (some d)) s₃ r = some f := fun hr => by
    rw [hrefs', ← hrefs]
    exact hkept.refs_of hr
  have hdir : refs L s (.kernel t.pgdir) = some s.cr3 := by
    obtain ⟨t', ht', -, -, hd⟩ := h.dir_ref hL
    rw [ht] at ht'
    cases ht'
    exact hd
  refine ⟨hkept, hf, hent.trans hent', Ne.symm hpc, ht', by rw [hkept.tasks _ hpc]; exact ht,
    by rw [htc, hrefs']; exact ⟨hv.heap, hd⟩, ⟨?_, by rw [hkept.cr3]; exact hkeep hdir⟩,
    update_self .., by rw [update_of_ne hpc, hkept.cr3]; exact hL,
    lt_of_le_of_lt (alive_add h.frames.ok.finite_live c d) hfew, fun w => ?_,
    hu.congr (fun k f hk hf => ⟨hkeep hf, hkept.phys f _ hf, fun q hq => ?_⟩) fun w => ?_⟩
  · exact (h.live_ref ht hl (part_dir ht (TaskStruct.live_pgdir hl))).1
  · rw [hent, hkept.user _ (by simp)]
    exact (entries_dead (i := 0) hLc).2
  · have hpl := h.map_plain (part_map ht hl (hu.pages_lt hk)) hf
    by_cases hqc : q = c
    · rw [hqc, update_self] at hq
      exact hdun _ (Option.some.inj hq ▸ hf)
    · rw [update_of_ne hqc] at hq
      exact hpl.1 q hq
  · rw [hent, hkept.user _ (by simp)]

/-- The child is born when it has its directory. -/
theorem Sound.born (h : Sound L s) (ht : s.tasks s.cur = some t) (hl : t.live = true) {v : Nat} {pid : Int}
    (hfew : alive L + 1 < 256) (hc : Fresh L s s₀ c 1) (h₁ : Kept L c s s₁)
    (hb : Fresh L s s₁ b bitmapPgCnt) (hcb : ∀ k, k < bitmapPgCnt → c ≠ b + k)
    (hcopy : ∀ k f g, k < bitmapPgCnt → refs L s₁ (.kernel (b + k)) = some f →
      refs L s (.kernel (t.userprogVaddr.bits + k)) = some g → s₁.phys f = s.phys g)
    (hdesc : ∃ f x, refs L s₁ (.kernel c) = some f ∧ s₁.phys f = descBytes (4096 * c) x uBlockDesc 16 descCnt)
    (hcun : ∀ f, refs L s₁ (.kernel c) = some f → ∀ r, refs L s r ≠ some f)
    (h₂ : Kept L c s₁ s') (hv : Fresh L s₁ s' v 1) (hd : refs L s' (.kernel v) = some d)
    (hz : ∀ i, i < 768 → pdeAt s'.phys d i = 0) (htc : tc = { t.copied pid b with pgdir := v }) :
    Born L s (s'.setTask c (some tc)) s.cur c d t tc := by
  obtain ⟨fc, x, hfc, hphc⟩ := hdesc
  have hpg : tc.pgdir = v := by rw [htc]
  have hub : tc.userprogVaddr = { t.userprogVaddr with bits := b } := by rw [htc]; rfl
  obtain ⟨hkept, hf, hent, hfork⟩ := h.forking ht hl hfew hc h₁ hv h₂ hd hz hpg
  have hrefs : refs L (s'.setTask c (some tc)) = refs L s' := refs_congr rfl rfl
  have hent' : entries L (s'.setTask c (some tc)) = entries L s' := entries_congr rfl rfl
  have hph : (s'.setTask c (some tc)).phys = s'.phys := rfl
  generalize s'.setTask c (some tc) = s₃ at *
  have hvs : Fresh L s s₃ v 1 := (hv.since h₁).keep fun u f hu => by rw [hrefs]; exact hu
  have hbs : Fresh L s s₃ b bitmapPgCnt := hb.keep fun u f hu => by rw [hrefs]; exact h₂.refs_of hu
  have hcv : c ≠ v := hv.disjoint (k := 0) (by decide) hfc
  have hbv : ∀ k, k < bitmapPgCnt → b + k ≠ v := fun k hk => by
    obtain ⟨f, hf, -⟩ := hb.new k hk
    exact hv.disjoint (k := 0) (by decide) hf
  have hlive : tc.live = true := by
    have hv0 : v ≠ 0 := fun h0 => by
      have hheap := hv.heap
      rw [h0] at hheap
      exact absurd hheap (by decide)
    rw [htc]
    unfold TaskStruct.live TaskStruct.copied
    simp [hv0]
  have hdun : ∀ r, refs L s r ≠ some d := by
    obtain ⟨f, hf, -, hun⟩ := hvs.new 0 (by decide)
    rw [Nat.add_zero, hrefs, hd] at hf
    cases hf
    exact hun
  obtain ⟨hparts, hinj⟩ := newParts (t := tc) (c := c) hc (by rw [hub]; exact hbs) (by rw [hpg]; exact hvs)
    (by rw [hub]; exact hcb) (by rw [hpg]; exact hcv) (by rw [hub, hpg]; exact hbv)
  refine ⟨hkept, hf, hent.trans hent'.symm, hfork, hlive, ⟨pid, by rw [htc]; rfl⟩, hparts, hinj, fun a w ha => ?_,
    fun k hk => ?_, fc, x, by rw [hrefs]; exact h₂.refs_of hfc, by rw [hph, h₂.phys fc _ hfc, hphc]⟩
  · have hnew : a = .pcb ∧ w = c ∨ a = .dir ∧ w = v ∨ ∃ k, k < bitmapPgCnt ∧ w = b + k := by
      cases a with
      | pcb =>
        cases ha
        exact .inl ⟨rfl, rfl⟩
      | dir =>
        rw [show tc.part c .dir = some tc.pgdir from if_neg (TaskStruct.live_pgdir hlive), hpg] at ha
        cases ha
        exact .inr (.inl ⟨rfl, rfl⟩)
      | map k =>
        simp only [TaskStruct.part, hub] at ha
        split at ha
        · rename_i hk
          cases ha
          exact .inr (.inr ⟨k, hk.2, rfl⟩)
        · cases ha
    rcases hnew with ⟨-, rfl⟩ | ⟨-, rfl⟩ | ⟨k, hk, rfl⟩
    · exact ⟨fc, by rw [hrefs]; exact h₂.refs_of hfc, hcun fc hfc⟩
    · exact ⟨d, by rw [hrefs]; exact hd, hdun⟩
    · obtain ⟨f, hf, -, hun⟩ := hbs.new k hk
      exact ⟨f, hf, hun⟩
  · obtain ⟨f, hf, -⟩ := hb.new k hk
    obtain ⟨-, g, hg⟩ := h.live_ref ht hl (part_map ht hl hk)
    refine ⟨f, g, ?_, hg, ?_⟩
    · rw [hub, hrefs]
      exact h₂.refs_of hf
    · rw [hph, h₂.phys f _ hf]
      exact hcopy k f g hk hf hg

/-- Where the list of all threads is, is no matter. -/
theorem Sound.listed (h : Sound L s) (l : List Nat) : Sound L { s with threadAllList := l } := by
  have hent : entries L { s with threadAllList := l } = entries L s := entries_congr rfl rfl
  have hrefs : refs L { s with threadAllList := l } = refs L s := refs_congr rfl rfl
  refine ⟨?_, h.few, ⟨h.kernelBits.set, h.kernelBits.mapped⟩, h.room, h.top, h.live, h.mapped, h.main, h.own,
    fun p t ht hl => ?_, ?_, h.inUse⟩
  · unfold Frames
    rw [hent]
    exact h.frames.of_eq rfl rfl rfl
  · refine (h.user p t ht hl).congr (fun k f hk hf => ⟨by rw [hrefs]; exact hf, rfl, fun q hq => ?_⟩) fun v => by rw [hent]
    obtain ⟨-, hc⟩ := h.part_frame (part_map ht hl ((h.user p t ht hl).pages_lt hk)) hf hq
    cases hc
  · unfold Cow
    rw [hent, hrefs]
    exact h.cow

/-- Parent and child have the pages that the parent had, read-only. -/
theorem Forked.pages (h : Forked L' c p s₁ s' kernelBase)
    (hold : ∀ v, entries L' s₁ (.pte p v) = entries L s (.pte p v)) (v : Nat) :
    entries L' s' (.pte p v) = (refs L s (.pte p v)).map (· * 4096 + pgRo) ∧
      entries L' s' (.pte c v) = (refs L s (.pte p v)).map (· * 4096 + pgRo) := by
  have hrefs : refs L' s₁ (.pte p v) = refs L s (.pte p v) := by
    unfold refs refsOf
    rw [hold]
  rw [h.parent v, h.child v, hrefs, hold]
  by_cases hv : v < kernelBase
  · rw [if_pos hv, if_pos hv]
    exact ⟨rfl, rfl⟩
  · have hno : entries L s (.pte p v) = none := by
      by_contra hne
      obtain ⟨w, hw⟩ := Option.ne_none_iff_exists'.1 hne
      obtain ⟨-, -, hlt, -⟩ := pde_of_pte hw
      exact hv hlt
    rw [if_neg hv, if_neg hv, refs_eq_none.2 hno, hno]
    exact ⟨rfl, rfl⟩

/-- The tables are copied, and the child is a process like the others. -/
theorem Sound.forked (h : Sound L s) (ht : s.tasks s.cur = some t) (hl : t.live = true)
    (hfew : alive L + 1 < 256) (hb : Born L s s₁ s.cur c d t tc)
    (h₁ : Forked (update L c (some d)) c s.cur s₁ s' kernelBase) (hl' : s.threadAllList = s'.threadAllList)
    (hpid : NewPid s s₁ tc.pid) :
    Sound (update L c (some d)) s' ∧
      HasForked L s { s' with threadAllList := s'.threadAllList ++ [c] } s.cur c d t tc := by
  have hpc : s.cur ≠ c := Ne.symm hb.forking.ne
  have hunborn : s.tasks c = none := by
    by_contra hne
    obtain ⟨u, hu⟩ := Option.ne_none_iff_exists'.1 hne
    obtain ⟨hv, hno⟩ := hb.parts .pcb c rfl
    exact h.not_part hv hno (part_pcb hu)
  have hker : ∀ u w, entries L s (.kernel u) = some w → entries (update L c (some d)) s' (.kernel u) = some w := by
    intro u w hw
    have := hb.kept.kernel u w hw
    rw [entries_kernel] at this ⊢
    rwa [h₁.kernelPte]
  have hkr : ∀ u f, refs L s₁ (.kernel u) = some f → refs (update L c (some d)) s' (.kernel u) = some f := by
    intro u f hu
    rw [refs_kernel] at hu ⊢
    rwa [h₁.kernelPte]
  have hold : ∀ q v, entries (update L c (some d)) s₁ (.pte q v) = entries L s (.pte q v) := fun q v => by
    rw [hb.entries, hb.kept.user _ (by simp)]
  have hrefs : ∀ q v, refs (update L c (some d)) s₁ (.pte q v) = refs L s (.pte q v) := fun q v => by
    unfold refs refsOf
    rw [hold]
  have hphys : ∀ g r, refs L s r = some g → Plain L s g → s'.phys g = s.phys g := fun g r hg hpl => by
    rw [h₁.phys g r (hb.keep hg) (hb.plain hg hpl), hb.kept.phys g r hg]
  have hparent := fun v => (h₁.pages (s := s) (fun v => hold s.cur v) v).1
  have hchild := fun v => (h₁.pages (s := s) (fun v => hold s.cur v) v).2
  have hother : ∀ q v, q ≠ s.cur → q ≠ c → entries (update L c (some d)) s' (.pte q v) = entries L s (.pte q v) :=
    fun q v h1 h2 => by rw [h₁.other q v h1 h2, hold]
  have hnone : ∀ v, (refs L s (.pte s.cur v)).map (· * 4096 + pgRo) = none ↔ entries L s (.pte s.cur v) = none := by
    intro v
    rw [← refs_eq_none (s := s)]
    cases refs L s (.pte s.cur v) with
    | none => simp
    | some f => simp
  have htasks : ∀ q, q ≠ c → s'.tasks q = s.tasks q := fun q hq => by rw [h₁.rest.tasks, hb.kept.tasks q hq]
  have htc : s'.tasks c = some tc := by rw [h₁.rest.tasks]; exact hb.forking.child
  have hd : refs (update L c (some d)) s' (.kernel tc.pgdir) = some d :=
    hkr _ _ (by rw [← hb.refs]; exact hb.forking.childDir.2)
  have huser : ∀ q u, s'.tasks q = some u → u.live = true → UserSpace (update L c (some d)) s' q u.userprogVaddr := by
    intro q u hu hul
    by_cases hq : q = c
    · subst hq
      rw [htc] at hu
      cases hu
      obtain ⟨pid, hcop⟩ := hb.copied
      have hub : tc.userprogVaddr = { t.userprogVaddr with bits := tc.userprogVaddr.bits } := by
        rw [hcop]
        rfl
      have hheap : kHeapStart ≤ tc.userprogVaddr.bits :=
        (hb.parts (.map 0) tc.userprogVaddr.bits (if_pos ⟨hb.live, by decide⟩)).1
      rw [hub]
      refine (h.user _ t ht hl).copy hheap (fun k hk => ?_) fun v => by rw [hchild, hnone]
      obtain ⟨f, g, hf, hg, hph⟩ := hb.bits k hk
      obtain ⟨f', hf', hun⟩ := hb.mapped (.map k) _ (if_pos ⟨hb.live, hk⟩)
      rw [hf] at hf'
      cases hf'
      have hdir : ∀ q', update L q (some d) q' ≠ some f := by
        intro q' hq'
        by_cases hqc : q' = q
        · rw [hqc, update_self] at hq'
          cases hq'
          have hcd := hb.forking.childDir
          rw [hb.refs] at hcd
          have he := hb.kept.frames.ok.kernel_only hb.kept.frames.kernel_base hcd.1 hcd.2 hf
          injection he with he
          have := hb.inj (.map k) .dir tc.pgdir (by rw [← he]; exact if_pos ⟨hb.live, hk⟩)
            (if_neg (TaskStruct.live_pgdir hb.live))
          cases this
        · rw [update_of_ne hqc] at hq'
          obtain ⟨w, -, hw⟩ := h.frames.ok.dir q' f hq'
          exact hun _ hw
      have hpl : Plain (update L q (some d)) s₁ f := hb.frames.plain_kernel (by rw [hb.refs]; exact hf) hdir
      exact ⟨f, g, hkr _ _ hf, hdir, hg, by rw [h₁.phys f _ (by rw [hb.refs]; exact hf) hpl, hph]⟩
    · rw [htasks q hq] at hu
      have hus := h.user q u hu hul
      refine hus.congr (fun k f hk hf => ?_) fun v => ?_
      · have hpl := h.map_plain (part_map hu hul (hus.pages_lt hk)) hf
        refine ⟨hkr _ _ (hb.kept.refs_of hf), hphys f _ hf hpl, fun q' hq' => (hb.plain hf hpl).1 q' hq'⟩
      · by_cases hqp : q = s.cur
        · rw [hqp, hparent, hnone]
        · rw [hother q v hqp hq]
  have hcow : Cow (update L c (some d)) s' := by
    refine h₁.cow hb.forking fun q w x hx hxw r hr => ?_
    rw [hold] at hx
    obtain ⟨q', rfl⟩ := hb.frames.ok.page_only hb.frames.pooled_base (hb.keep (refs_eq_some.2 ⟨x, hx, rfl⟩)) hr
    rw [hrefs] at hr
    exact h.cow q w x hx hxw _ hr
  have hbits : KernelBits s' := ⟨by rw [h₁.kernelPte, h₁.kernelVaddr]; exact hb.kept.kernelBits.set,
    by rw [h₁.kernelPte, h₁.kernelVaddr]; exact hb.kept.kernelBits.mapped⟩
  refine ⟨h.addProcess hfew h₁.frames hbits (by rw [h₁.kernelVaddr, hb.kept.room]) hker htasks htc hb.live hd hb.parts
    (fun a v ha => ?_) hb.inj huser hcow (h₁.rest.cur.trans hb.kept.cur) (h₁.rest.cr3.trans hb.kept.cr3) hpc, ?_⟩
  · obtain ⟨f, hf, -⟩ := hb.mapped a v ha
    exact (refs_kernel.1 (hkr v f hf)).1
  · obtain ⟨f, x, hf, hph⟩ := hb.descs
    have hent : entries (update L c (some d)) { s' with threadAllList := s'.threadAllList ++ [c] } =
        entries (update L c (some d)) s' := entries_congr rfl rfl
    have hfd : ∀ q, update L c (some d) q ≠ some f := by
      intro q hq
      by_cases hqc : q = c
      · rw [hqc, update_self] at hq
        cases hq
        have hcd := hb.forking.childDir
        rw [hb.refs] at hcd
        have he := hb.kept.frames.ok.kernel_only hb.kept.frames.kernel_base hcd.1 hcd.2 hf
        injection he with he
        have := hb.inj .pcb .dir tc.pgdir (by rw [← he]; rfl) (if_neg (TaskStruct.live_pgdir hb.live))
        cases this
      · rw [update_of_ne hqc] at hq
        obtain ⟨f', hf', hun⟩ := hb.mapped .pcb c rfl
        rw [hf] at hf'
        cases hf'
        obtain ⟨w, -, hw⟩ := h.frames.ok.dir q f hq
        exact hun _ hw
    have hpl : Plain (update L c (some d)) s₁ f := hb.frames.plain_kernel (by rw [hb.refs]; exact hf) hfd
    have hpools := hb.kept.toSamePools.trans h₁.rest.toSamePools
    refine ⟨⟨hpools.kernelStart, hpools.kernelSize, hpools.userStart, hpools.userSize⟩, hunborn, htc, htasks,
      hb.copied, ?_, hb.parts, fun v => by rw [hent]; exact hparent v, fun v => by rw [hent]; exact hchild v,
      fun q v h1 h2 => by rw [hent]; exact hother q v h1 h2, fun u w hw => by rw [hent]; exact hker u w hw, hphys,
      ⟨f, x, ?_, ?_⟩, by rw [hl'], h₁.rest.cur.trans hb.kept.cur, h₁.rest.cr3.trans hb.kept.cr3⟩
    · obtain ⟨i, hi, hp, hpb⟩ := hpid
      exact ⟨i, hi, hp, h₁.rest.pidBitmap.trans hpb⟩
    · have hkc := hkr c f hf
      unfold refs at hkc ⊢
      rwa [hent]
    · exact (h₁.phys f _ (by rw [hb.refs]; exact hf) hpl).trans hph

/-- The bitmap of the parent is left alone. -/
theorem Sound.tableCnt_kept (h : Sound L s) (ht : s.tasks p = some t) (hl : t.live = true) (hk : Kept L c s s₁) :
    tableCnt (s₁.btmp t.userprogVaddr) = tableCnt (s.btmp t.userprogVaddr) := by
  have hu := h.user p t ht hl
  have hlen := hu.len
  have hpage : ∀ k f, k ≤ t.userprogVaddr.btmpBytesLen / 4096 →
      refs L s (.kernel (t.userprogVaddr.bits + k)) = some f →
      refs L s₁ (.kernel (t.userprogVaddr.bits + k)) = some f ∧ s₁.phys f = s.phys f :=
    fun k f _ hf => ⟨hk.refs_of hf, hk.phys f _ hf⟩
  unfold tableCnt
  rw [tablesFrom_congr fun j hj => ?_]
  unfold Bitmap.bit
  rw [btmp_congr hu.toBtmpOk hpage (by omega)]

/-- `bitmap_scan` finds a clear bit of `kernel_vaddr` for the child's record, a run
of them for its bitmap, and one for its directory; there are still `e` in a row
when they are taken. -/
def Vm.forkFinds (s : Vm) (e : Nat) : Prop := ∃ i j k : Nat, s.kernelVaddr.scan 1 = some (i : Int) ∧
  (setRange s.kernelVaddr true i 1).scan bitmapPgCnt = some (j : Int) ∧
  (setRange (setRange s.kernelVaddr true i 1) true j bitmapPgCnt).scan 1 = some (k : Int) ∧
  ∃ m, m + e ≤ s.kernelVaddr.size ∧ ∀ x, m ≤ x → x < m + e →
    (setRange (setRange (setRange s.kernelVaddr true i 1) true j bitmapPgCnt) true k 1).bit x = false

/-- `sys_fork` of the running process; with a budget `B` it does not run out of
memory. -/
theorem Sound.sysFork_within {B : Prop} {a x e l : Nat} (h : Sound L s) (ht : s.tasks s.cur = some t)
    (hl : t.live = true) (hfew : alive L + 1 < 256) (hroom : s.bitmapRoom = true)
    (hB : B → Has s.tasks (25 + tableCnt (s.btmp t.userprogVaddr) + a) x q (1 + l) s ∧ s.forkFinds e) :
    runs (fun y => ForkStop t y ∧ (B → Enough y)) Memory.sysFork (fun r s' => ∃ c d tc,
      Sound (update L c (some d)) s' ∧ HasForked L s s' s.cur c d t tc ∧ r = tc.pid ∧
      (∀ q i w, entries L s (.pde q i) = some w → entries (update L c (some d)) s' (.pde q i) = some w) ∧
      (s.forkFinds 0 ∧ s'.kernelVaddr.free + 22 ≤ s.kernelVaddr.free) ∧ (B → Has s'.tasks a x e l s')) s := by
  have hu := h.user _ t ht hl
  obtain ⟨hpcb, hpf⟩ := h.live_ref ht hl (part_pcb ht)
  have hbits : ∀ k, k < bitmapPgCnt → ∃ f, refs L s (.kernel (t.userprogVaddr.bits + k)) = some f := fun k hk =>
    (h.live_ref ht hl (part_map ht hl hk)).2
  have hcnt : bitmapPgCnt = 23 := by decide
  unfold Memory.sysFork
  rw [runs_read_bind]
  refine runs_seq (runs_within (B := B) (runs_mono (getPage_kept h.frames h.kernelBits 0) (fun _ hx => .inl hx)
    fun _ _ hq => hq) fun hb => getKernelPages_found (k := 24 + tableCnt (s.btmp t.userprogVaddr) + a) (p := 0)
      ((hB hb).1.mono (by omega) (le_refl x) (le_refl q) (le_refl (1 + l))) fun _ => by
        obtain ⟨i, j, k, hi, -⟩ := (hB hb).2
        exact ⟨i, hi, 0, Nat.zero_le _, fun y h1 h2 => absurd h2 (by omega)⟩) ?_
  rintro _ s₁ ⟨⟨c, rfl, -, hc₁, ht₁, hg₁⟩, hb₁⟩
  have h₁ : Kept L c s s₁ := (Kept.refl h.frames h.kernelBits c).got hg₁
  obtain ⟨i₁, hi₁, -, hkv₁⟩ := hg₁.run
  have hpc : s.cur ≠ c := by
    obtain ⟨f, hf⟩ := hpf
    exact hc₁.disjoint (k := 0) (by decide) hf
  simp only
  rw [runs_bind_ok (task_run (by rw [ht₁]; exact ht)), runs_bind_ok (guard_run (TaskStruct.live_pgdir hl) _ s₁)]
  unfold copyProcess
  simp only [runs_bind]
  -- record and bitmap
  refine runs_mono (copyPcb_within (B := B) (T := s.tasks) (a := 1 + tableCnt (s.btmp t.userprogVaddr) + a) (x := x)
    (q := 0) (e := 0) (l := l) h₁ hc₁ ht hpc hpcb hpf hu.heap hbits (hg₁.bitmapRoom hroom) fun hb =>
      ⟨(hb₁ hb).2.mono (by omega) (le_refl x) (le_refl 0) (le_refl (1 + l)), by
        obtain ⟨i, j, k, hi, hj, -⟩ := (hB hb).2
        rw [hi₁] at hi
        cases hi
        exact ⟨j, by rw [hkv₁]; exact hj, 0, Nat.zero_le _, fun y h1 h2 => absurd h2 (by omega)⟩⟩) (fun _ hx => hx) ?_
  rintro _ s₂ ⟨rfl, pid, b, h₂, hpid₂, hker₂, ⟨hb₂, hcb⟩, ht₂, hcopy, hdesc, ⟨j₂, hj₂, hkv₂⟩, hbud₂⟩
  rw [if_neg (by decide)]
  simp only [runs_bind]
  -- the directory
  refine runs_mono (runs_within (createPageDir_spec h₂.frames h₂.kernelBits c) fun hb =>
    createPageDir_found (k := tableCnt (s.btmp t.userprogVaddr) + a) (p := e)
      ((hbud₂ hb).mono (by omega) (le_refl x) (le_refl 0) (le_refl l)) (by
        obtain ⟨i, j, k, hi, hj, hk, m, hm, hlow⟩ := (hB hb).2
        rw [hi₁] at hi
        cases hi
        rw [hkv₁, hj] at hj₂
        cases hj₂
        refine ⟨k, by rw [hkv₂, hkv₁]; exact hk, m, ?_, fun y h1 h2 => ?_⟩
        · rw [hkv₂, hkv₁, setRange_size, setRange_size]
          exact hm
        · rw [hkv₂, hkv₁]
          exact hlow y h1 h2)) (fun _ hx => ⟨.inl hx.1, hx.2⟩) ?_
  rintro _ s₃ ⟨⟨v, d, rfl, hk₃, hv₃, ⟨ht₃, hpb₃⟩, hd₃, hz₃, k₃, hk₃'⟩, hbud₃⟩
  have hpid : NewPid s (s₃.setTask c (some { t.copied pid b with pgdir := v })) pid := by
    obtain ⟨i, hi, hp, hpb⟩ := hpid₂
    rw [hg₁.rest.pidBitmap] at hi hpb
    exact ⟨i, hi, hp, hpb₃.trans hpb⟩
  rw [runs_ok (task_run (by rw [ht₃]; exact ht₂)), runs_change, if_neg (by simp), Option.getD_some]
  have hcun : ∀ f, refs L s₂ (.kernel c) = some f → ∀ r, refs L s r ≠ some f := by
    obtain ⟨fc, hfc, -, hun⟩ := hc₁.new 0 (by decide)
    intro f hf
    rw [hker₂ c fc hfc] at hf
    cases hf
    exact hun
  have hborn := h.born ht hl hfew hc₁ h₂ hb₂ hcb hcopy hdesc hcun hk₃ hv₃ hd₃ hz₃
    (rfl : ({ t.copied pid b with pgdir := v } : TaskStruct) = { t.copied pid b with pgdir := v })
  -- the tables
  have hbtmp := h.tableCnt_kept ht hl hborn.kept
  refine runs_seq (runs_mono (runs_within (copyPageTables_spec hborn.frames hborn.forking) fun hb =>
    copyPageTables_has (a := a) (b := x) (e := e) (l := l) hborn.frames hborn.forking rfl
      (((hbud₃ hb).setTask c (some { t.copied pid b with pgdir := v })).self.mono (by rw [hbtmp]) (le_refl x)
        (le_refl e) (le_refl l))) (fun _ hx => ⟨.inl hx.1, hx.2⟩) fun _ _ hq => hq) ?_
  rintro - s₅ ⟨h₅, hbud₅⟩
  rw [runs_pure, if_neg (by decide)]
  obtain ⟨hsound, hfork⟩ := h.forked ht hl hfew hborn h₅ (by rw [h₅.rest.threadAllList, hborn.kept.threadAllList]) hpid
  simp only [runs_bind, runs_change]
  rw [runs_ok (task_run hfork.record), runs_pure]
  refine ⟨c, d, _, hsound.listed _, hfork, rfl, fun q i w hw => ?_, ⟨⟨i₁, j₂, k₃, hi₁, ?_, ?_, 0, Nat.zero_le _,
    fun y h1 h2 => absurd h2 (by omega)⟩, ?_⟩, fun hb => Has.of_eq (hbud₅ hb).self rfl⟩
  · refine h₅.keepTable q i w ?_
    rw [hborn.entries, hborn.kept.user _ (by simp)]
    exact hw
  · rw [← hkv₁]
    exact hj₂
  · rw [← hkv₁, ← hkv₂]
    exact hk₃'
  · have hle₁ := h₁.free_le h.kernelBits
    have hfree₂ := setRange_free hj₂
    have hle₃ : s₃.kernelVaddr.free ≤ s₂.kernelVaddr.free := hk₃.free_le h₂.kernelBits
    rw [← hkv₂, hcnt] at hfree₂
    show s₅.kernelVaddr.free + 22 ≤ s.kernelVaddr.free
    rw [h₅.kernelVaddr]
    show s₃.kernelVaddr.free + 22 ≤ s.kernelVaddr.free
    omega

/-- `sys_fork` of the running process. -/
theorem Sound.sysFork (h : Sound L s) (ht : s.tasks s.cur = some t) (hl : t.live = true)
    (hfew : alive L + 1 < 256) (hroom : s.bitmapRoom = true) :
    runs (ForkStop t) Memory.sysFork (fun r s' => ∃ c d tc, Sound (update L c (some d)) s' ∧
      HasForked L s s' s.cur c d t tc ∧ r = tc.pid) s := by
  refine runs_mono (h.sysFork_within (B := False) (a := 0) (x := 0) (q := 0) (e := 0) (l := 0) ht hl hfew hroom fun hb => hb.elim)
    (fun _ hx => hx.1) ?_
  rintro r s' ⟨c, d, tc, hs, hf, hr, -, -⟩
  exact ⟨c, d, tc, hs, hf, hr⟩

end

end Enix.Memory
