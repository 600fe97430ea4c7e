import Enix.Memory.Reap

/-!
# The first states (`boot/loader.s`, `mem_init`, `thread_init`, `process_execute`)

`boot allMem phys`: the state after `mem_init` on a machine with `allMem` bytes,
whose memory holds `phys`. `boot_sound`: the invariant holds there without any
process.

* `Sound.processExecute`: a process without pages is added.
* `Sound.makeMainThread`, `Sound.processActivate`: threads are named and switched.
-/
set_option autoImplicit false

namespace Enix.Memory
open Enix.Core Enix.Kernel Function

/-- A bitmap after `bitmap_init`. -/
def clearBitmap (len : Nat) : Bitmap := ⟨len, fun _ => 0⟩

/-- mirrors src/boot/loader.s:333-370 (the page tables) and
src/kernel/memory.c:102-166 (`mem_pool_init`) -/
def boot (allMem : Nat) (phys : Nat → Bytes) : Vm :=
  let usedMem := 4096 * 256 + 0x100000
  let freeMem := (allMem + 4294967296 - usedMem) % 4294967296
  let allFreePage := freeMem / 4096 % 65536
  let kernelFreePages := allFreePage / 2
  let userFreePages := allFreePage - kernelFreePages
  { phys := phys
    kernelPool := ⟨clearBitmap (kernelFreePages / 8), usedMem / 4096⟩
    userPool := ⟨clearBitmap (userFreePages / 8), usedMem / 4096 + kernelFreePages⟩
    mem := fun _ => 0
    kernelVaddr := clearBitmap (kernelFreePages / 8)
    kernelPte := fun v => if kernelBase ≤ v ∧ v < kHeapStart then (v - kernelBase) * 4096 + pgRw else 0
    tasks := fun _ => none
    threadAllList := []
    pidBitmap := clearBitmap 128
    cr3 := 0x100
    cur := mainThread }

/-- `"main"`. -/
def mainName : List UInt8 := [109, 97, 105, 110]

/-- mirrors src/thread/thread.c:117-151, 175-186 (`init_thread`, `make_main_thread`) -/
def makeMainThread : M Unit := do
  let pid ← allocatePid
  Cmd.change (·.setTask mainThread (some ⟨pid, .running, mainName, 0, ⟨0, 0, 0⟩, -1⟩))
  Cmd.change fun s => { s with threadAllList := s.threadAllList ++ [mainThread] }

/-- Process `c` is new: it has record `tc` and directory `d`, and no pages. -/
structure HasExecuted (L : Spaces) (s s' : Vm) (c d : Nat) (name : List UInt8) (tc : TaskStruct) : Prop extends
    Vm.SamePools s s' where
  unborn : s.tasks c = none
  record : s'.tasks c = some tc
  others : ∀ q, q ≠ c → s'.tasks q = s.tasks q
  made : tc = ⟨tc.pid, .ready, name, tc.pgdir, ⟨userBtmpLen, tc.userprogVaddr.bits, userVaddrStart⟩, -1⟩
  newPid : NewPid s s' tc.pid
  parts : ∀ a v, tc.part c a = some v → kHeapStart ≤ v ∧ entries L s (.kernel v) = none
  page : ∀ q v, entries (update L c (some d)) s' (.pte q v) = entries L s (.pte q v)
  kernel : ∀ u w, entries L s (.kernel u) = some w → entries (update L c (some d)) s' (.kernel u) = some w
  phys : ∀ g r, refs L s r = some g → s'.phys g = s.phys g
  descs : ∃ f x, refs (update L c (some d)) s' (.kernel c) = some f ∧
    s'.phys f = descBytes (4096 * c) x uBlockDesc 16 descCnt
  threadAllList : s'.threadAllList = s.threadAllList ++ [c]
  cur : s'.cur = s.cur
  cr3 : s'.cr3 = s.cr3

section
variable {L : Spaces} {s s₀ s₁ s' : Vm} {t tc : TaskStruct} {allMem : Nat} {phys : Nat → Bytes}
  {b c d f k n p q v w : Nat}

/-! ## Boot -/

theorem clearBitmap_bit (len i : Nat) : (clearBitmap len).bit i = false := by
  unfold Bitmap.bit clearBitmap
  simp

theorem boot_kernelPte (v : Nat) : (boot allMem phys).kernelPte v =
    if kernelBase ≤ v ∧ v < kHeapStart then (v - kernelBase) * 4096 + pgRw else 0 := rfl

theorem boot_entries (r : Ref) (w : Nat) (hr : entries (fun _ => none) (boot allMem phys) r = some w) :
    ∃ v, r = .kernel v ∧ kernelBase ≤ v ∧ v < kHeapStart ∧ w = (v - kernelBase) * 4096 + pgRw := by
  cases r with
  | kernel v =>
    rw [entries_kernel, boot_kernelPte] at hr
    obtain ⟨hp, rfl⟩ := hr
    by_cases hv : kernelBase ≤ v ∧ v < kHeapStart
    · rw [if_pos hv]
      exact ⟨v, rfl, hv.1, hv.2, rfl⟩
    · rw [if_neg hv] at hp
      cases hp
  | pde p i => cases hr
  | pte p v => cases hr

theorem boot_refs {r : Ref} (hr : refs (fun _ => none) (boot allMem phys) r = some f) :
    ∃ v, r = .kernel v ∧ kernelBase ≤ v ∧ v < kHeapStart ∧ f = v - kernelBase := by
  obtain ⟨w, hw, rfl⟩ := refs_eq_some.1 hr
  obtain ⟨v, rfl, h1, h2, rfl⟩ := boot_entries r w hw
  exact ⟨v, rfl, h1, h2, frame_pgRw _⟩

theorem boot_pooled (hf : (boot allMem phys).Pooled f) : memBase ≤ f := by
  unfold Vm.Pooled Vm.Holds boot at hf
  simp only [Vm.pool_kernel, Vm.pool_user] at hf
  unfold memBase
  omega

theorem boot_books : Frames (fun _ => none) quits (boot allMem phys) := by
  have hlow : ∀ r f, refs (fun _ => none) (boot allMem phys) r = some f → f < memBase := by
    intro r f hr
    obtain ⟨v, -, h1, h2, hf⟩ := boot_refs hr
    have hend : kHeapStart = kernelBase + 0x100 := rfl
    have hbase : memBase = 0x200 := rfl
    omega
  have hfin : FinRefs (refs (fun _ => none) (boot allMem phys)) := by
    refine ((Set.finite_lt_nat kHeapStart).image Ref.kernel).subset fun r hr => ?_
    obtain ⟨f, hf⟩ := Option.ne_none_iff_exists'.1 hr
    obtain ⟨v, rfl, -, hv, -⟩ := boot_refs hf
    exact ⟨v, hv, rfl⟩
  refine ⟨rfl, ?_, ?_, ⟨hfin, fun r f hr => ?_, fun r r' f hr _ hf => ?_, fun _ _ hd => (by cases hd),
    fun _ _ _ hd => (by cases hd)⟩, fun f hf => ?_, fun f _ => ?_, fun f _ hpos => ?_, fun r w hr => ?_⟩
  · unfold boot Bitmap.size clearBitmap memBase
    simp only
    omega
  · unfold boot Bitmap.size clearBitmap
    simp only
    omega
  · obtain ⟨v, rfl, -, hv, -⟩ := boot_refs hr
    simp only [Home, if_pos hv]
    exact hlow _ _ hr
  · have := hlow r f hr
    omega
  · have hno : ∀ r, refs (fun _ => none) (boot allMem phys) r ≠ some f := fun r hr => by
      have := hlow r f hr
      have := boot_pooled hf
      omega
    rw [show refCount (refsOf (entries (fun _ => none) (boot allMem phys))) f = 0 from (refCount_eq_zero hfin).2 hno]
    rfl
  · have hbit : (boot allMem phys).frameBit f = false := by
      unfold Vm.frameBit
      split
      · exact clearBitmap_bit _ _
      · exact clearBitmap_bit _ _
    rw [hbit]
    exact ⟨fun hc => (by cases hc), fun hc => absurd hc (Nat.lt_irrefl 0)⟩
  · exact absurd hpos (Nat.lt_irrefl 0)
  · obtain ⟨v, rfl, -, -, rfl⟩ := boot_entries r w hr
    exact flags_pgRw _

/-- The invariant holds before any process is there. -/
theorem boot_sound (allMem : Nat) (phys : Nat → Bytes) : Sound (fun _ => none) (boot allMem phys) := by
  have hnopart : ∀ p a, (boot allMem phys).part p a = none := fun _ _ => rfl
  refine ⟨boot_books, ?_, ⟨fun j hj => ?_, fun j _ hj => ?_⟩, ?_, ?_, rfl, fun p a v hp => ?_, fun t ht => (by cases ht),
    fun p q a b v hp => ?_, fun p t ht => (by cases ht), fun p v w hw => ?_, fun t ht => (by cases ht)⟩
  · unfold alive
    simp
  · rw [boot_kernelPte, if_neg (by omega)] at hj
    cases hj
  · rw [show (boot allMem phys).kernelVaddr.bit j = false from clearBitmap_bit _ _] at hj
    cases hj
  · unfold boot Bitmap.size clearBitmap
    simp only
    omega
  · rw [boot_kernelPte, if_pos (by decide)]
    exact present_pgRw _
  · rw [hnopart] at hp
    cases hp
  · rw [hnopart] at hp
    cases hp
  · cases hw

/-! ## Threads -/

/-- `make_main_thread`. -/
theorem Sound.makeMainThread (h : Sound L s) (hno : s.tasks mainThread = none) :
    runs OutOfMemory Memory.makeMainThread (fun _ s' => Sound L s' ∧ s'.kernelPte = s.kernelPte ∧
      ∀ q a v, s'.part q a = some v → (q = mainThread ∧ a = .pcb ∧ v = mainThread) ∨ s.part q a = some v) s := by
  unfold Memory.makeMainThread
  refine runs_seq allocatePid_spec ?_
  rintro pid _ ⟨i, -, -, rfl⟩
  rw [runs_change_bind, runs_change]
  generalize s.pidBitmap.set i true = pb
  have hrec : ∀ q u, q ≠ mainThread → update s.tasks mainThread u q = s.tasks q := fun q u hq => update_of_ne hq _ _
  generalize hs' : ({ ({ s with pidBitmap := pb } : Vm).setTask mainThread
    (some ⟨pid, .running, mainName, 0, ⟨0, 0, 0⟩, -1⟩) with
      threadAllList := (({ s with pidBitmap := pb } : Vm).setTask mainThread
        (some ⟨pid, .running, mainName, 0, ⟨0, 0, 0⟩, -1⟩)).threadAllList ++ [mainThread] } : Vm) = s'
  have htasks : s'.tasks = update s.tasks mainThread (some ⟨pid, .running, mainName, 0, ⟨0, 0, 0⟩, -1⟩) := by
    rw [← hs']
    rfl
  have hph : s'.phys = s.phys := by rw [← hs']; rfl
  have hkp : s'.kernelPte = s.kernelPte := by rw [← hs']; rfl
  have hent : entries L s' = entries L s := entries_congr hph hkp
  have hrefs : refs L s' = refs L s := refs_congr hph hkp
  have hcur : s'.cur = s.cur ∧ s'.cr3 = s.cr3 ∧ s'.kernelVaddr = s.kernelVaddr := by
    rw [← hs']
    exact ⟨rfl, rfl, rfl⟩
  have hold : ∀ q u, s'.tasks q = some u → (q = mainThread ∧ u.pgdir = 0 ∧ u.live = false) ∨ s.tasks q = some u := by
    intro q u hu
    rw [htasks] at hu
    by_cases hq : q = mainThread
    · rw [hq, update_self] at hu
      cases hu
      exact .inl ⟨hq, rfl, rfl⟩
    · rw [hrec q _ hq] at hu
      exact .inr hu
  have hpart : ∀ q a v, s'.part q a = some v → (q = mainThread ∧ a = .pcb ∧ v = mainThread) ∨ s.part q a = some v := by
    intro q a v hp
    unfold Vm.part at hp ⊢
    rw [htasks] at hp
    by_cases hq : q = mainThread
    · rw [hq, update_self] at hp
      cases a with
      | pcb =>
        cases hp
        exact .inl ⟨hq, rfl, hq ▸ rfl⟩
      | dir => cases hp
      | map k => simp [TaskStruct.part, TaskStruct.live] at hp
    · rw [hrec q _ hq] at hp
      exact .inr hp
  have hnot : ∀ q a, s.part q a ≠ some mainThread := by
    intro q a hp
    rcases h.mapped q a _ hp with ⟨rfl, -⟩ | ⟨hv, -⟩
    · unfold Vm.part at hp
      rw [hno] at hp
      cases hp
    · exact absurd hv (by decide)
  refine ⟨⟨?_, h.few, ⟨?_, ?_⟩, by rw [hcur.2.2]; exact h.room, by rw [hkp]; exact h.top, ?_, fun q a v hp => ?_,
    fun u hu => ?_, fun q q' a b v hp hp' => ?_, fun q u hu hul => ?_, ?_, fun u hu hul => ?_⟩, hkp, hpart⟩
  · unfold Frames
    rw [hent]
    exact h.frames.of_eq (by rw [← hs']; rfl) (by rw [← hs']; rfl) (by rw [← hs']; rfl)
  · rw [hkp, hcur.2.2]
    exact h.kernelBits.set
  · rw [hkp, hcur.2.2]
    exact h.kernelBits.mapped
  · funext q
    rw [← h.live]
    unfold Vm.spaces
    rw [htasks, hkp]
    by_cases hq : q = mainThread
    · rw [hq, update_self, hno]
      rfl
    · rw [hrec q _ hq]
  · rcases hpart q a v hp with ⟨rfl, rfl, -⟩ | hp
    · exact .inl ⟨rfl, rfl⟩
    · rw [hkp]
      exact h.mapped q a v hp
  · rcases hold _ u hu with ⟨-, hd, -⟩ | hu
    · exact hd
    · exact h.main u hu
  · rcases hpart q a v hp with ⟨rfl, rfl, rfl⟩ | hp
    · rcases hpart q' b _ hp' with ⟨rfl, rfl, -⟩ | hp'
      · exact ⟨rfl, rfl⟩
      · exact absurd hp' (hnot q' b)
    · rcases hpart q' b v hp' with ⟨rfl, rfl, rfl⟩ | hp'
      · exact absurd hp (hnot q a)
      · exact h.own q q' a b v hp hp'
  · rcases hold q u hu with ⟨-, -, hd⟩ | hu
    · rw [hd] at hul
      cases hul
    · have hu' := h.user q u hu hul
      refine hu'.congr (fun k f hk hf => ⟨by rw [hrefs]; exact hf, by rw [hph], fun q' hq' => ?_⟩) fun v => by rw [hent]
      obtain ⟨-, hc⟩ := h.part_frame (part_map hu hul (hu'.pages_lt hk)) hf hq'
      cases hc
  · unfold Cow
    rw [hent, hrefs]
    exact h.cow
  · rw [hcur.1] at hu ⊢
    rw [hcur.2.1]
    rcases hold _ u hu with ⟨-, -, hd⟩ | hu
    · rw [hd] at hul
      cases hul
    · exact h.inUse u hu hul

/-- Which thread runs is no matter, as long as its directory is in use. -/
theorem Sound.switch (h : Sound L s) (f p : Nat)
    (hin : ∀ t, s.tasks p = some t → t.live = true → L p = some f) :
    Sound L { s with cr3 := f, cur := p } := by
  have hent : entries L { s with cr3 := f, cur := p } = entries L s := entries_congr rfl rfl
  have hrefs : refs L { s with cr3 := f, cur := p } = refs L s := refs_congr rfl rfl
  refine ⟨?_, h.few, ⟨h.kernelBits.set, h.kernelBits.mapped⟩, h.room, h.top, h.live, h.mapped, h.main, h.own,
    fun q u hu hul => ?_, ?_, hin⟩
  · unfold Frames
    rw [hent]
    exact h.frames.of_eq rfl rfl rfl
  · have hu' := h.user q u hu hul
    refine hu'.congr (fun k g hk hg => ⟨by rw [hrefs]; exact hg, rfl, fun q' hq' => ?_⟩) fun v => by rw [hent]
    obtain ⟨-, hc⟩ := h.part_frame (part_map hu hul (hu'.pages_lt hk)) hg hq'
    cases hc
  · unfold Cow
    rw [hent, hrefs]
    exact h.cow

/-- `process_activate` of a thread that has not ended. -/
theorem Sound.processActivate (h : Sound L s) (ht : s.tasks p = some t) (hst : t.status ≠ .hanging) :
    runs (fun _ => False) (processActivate p) (fun _ s' => Sound L s' ∧
      ∃ f, s' = { s with cr3 := f, cur := p }) s := by
  unfold Memory.processActivate
  by_cases hd : t.pgdir = 0
  · have hrun : pageDirActivate p s = .ok ((), { s with cr3 := 0x100 }) := by
      unfold pageDirActivate
      rw [bind_ok (task_run ht), if_pos hd]
      rfl
    rw [runs_bind_ok hrun, runs_change]
    refine ⟨h.switch 0x100 p fun u hu hul => ?_, _, rfl⟩
    rw [ht] at hu
    cases hu
    exact absurd hd (TaskStruct.live_pgdir hul)
  · have hl : t.live = true := by
      unfold TaskStruct.live
      simp [hd, hst]
    obtain ⟨d, hL⟩ := h.live_space ht hl
    obtain ⟨t', ht', -, hv, hr⟩ := h.dir_ref hL
    rw [ht] at ht'
    cases ht'
    rw [runs_bind_ok (pageDirActivate_run ht hv hr), runs_change]
    refine ⟨h.switch d p fun u _ _ => hL, _, rfl⟩

/-! ## `process_execute` -/

/-- The stops of `process_execute`: the stores to what NULL points to are made
again for ever. -/
def ExecuteStop (x : Stop) : Prop := OutOfMemory x ∨ x = .fault

/-- `create_user_vaddr_bitmap` in a process that is being made. -/
theorem createUserVaddrBitmap_spec {B : Prop} {T : Nat → Option TaskStruct} {k x p i : Nat} (h : Kept L c s₀ s)
    (hB : B → Has T k x p i s ∧ bitmapPgCnt ≤ k ∧ bitmapPgCnt ≤ p) :
    runs (fun y => ExecuteStop y ∧ ¬ B) createUserVaddrBitmap (fun u s' => (u = ⟨userBtmpLen, u.bits, userVaddrStart⟩ ∧
      Kept L c s₀ s' ∧ Kept L c s s' ∧ Fresh L s₀ s' u.bits bitmapPgCnt ∧ Fresh L s s' u.bits bitmapPgCnt ∧
      (s'.tasks = s.tasks ∧ s'.pidBitmap = s.pidBitmap) ∧
      (s'.kernelVaddr.free + 22 ≤ s.kernelVaddr.free ∧
        ∀ k f, k < bitmapPgCnt → refs L s' (.kernel (u.bits + k)) = some f → s'.phys f = zeros)) ∧
      (B → Has T (k - bitmapPgCnt) x (p - bitmapPgCnt) i s')) s := by
  unfold createUserVaddrBitmap
  refine runs_seq (runs_mono (runs_within (B := B) (getPages_kept h.frames h.kernelBits c
    (by decide : 0 < bitmapPgCnt) (by decide)) fun hb => getKernelPages_has (hB hb).1 (hB hb).2.1 (hB hb).2.2)
    (fun _ hx => ⟨.inl hx.1, fun hb => hx.2 hb hx.1⟩) fun _ _ hq => hq) ?_
  rintro r s₁ ⟨⟨rfl, -, -⟩ | ⟨b, rfl, hk, hf, ht, hg⟩, hbud⟩
  · exact ⟨.inr rfl, fun hb => (hbud hb).1 rfl⟩
  · rw [get_some, runs_pure_bind, runs_pure]
    obtain ⟨i, hi, -, hkv⟩ := hg.run
    have hfree := setRange_free hi
    rw [← hkv] at hfree
    exact ⟨⟨rfl, h.got hg, hk, hf.since h, hf, ⟨ht, hg.rest.pidBitmap⟩, hfree, fun k f hk' hr => hg.zero k f hk' hr⟩,
      fun hb => (hbud hb).2⟩

/-- `process_execute`; with a budget `B` it returns. -/
theorem Sound.processExecute_within {B : Prop} {a x e l : Nat} (h : Sound L s) (hfew : alive L + 1 < 256)
    (hcur : s.cur = mainThread ∨ s.tasks s.cur ≠ none) (name : List UInt8)
    (hB : B → Has s.tasks (25 + a) x (25 + e) (1 + l) s) :
    runs (fun y => ExecuteStop y ∧ ¬ B) (processExecute name) (fun _ s' => ∃ c d tc, Sound (update L c (some d)) s' ∧
      HasExecuted L s s' c d name tc ∧ s'.kernelVaddr.free + 22 ≤ s.kernelVaddr.free ∧ (B → Has s'.tasks a x e l s')) s := by
  have hcnt : bitmapPgCnt = 23 := by decide
  unfold Memory.processExecute
  refine runs_seq (runs_mono (runs_within (B := B) (getPage_kept h.frames h.kernelBits 0) fun hb =>
    getKernelPages_has (hB hb) (by omega) (by omega)) (fun _ hx => ⟨.inl hx.1, fun hb => hx.2 hb hx.1⟩)
    fun _ _ hq => hq) ?_
  rintro _ s₁ ⟨⟨c, rfl, -, hc₁, ht₁, hg₁⟩, hbud₁⟩
  have h₁ : Kept L c s s₁ := (Kept.refl h.frames h.kernelBits c).got hg₁
  rw [get_some, runs_pure_bind]
  refine runs_seq (runs_mono (runs_within (B := B) allocatePid_spec fun hb =>
    allocatePid_costs.run (hbud₁ hb).2 (by omega) (by omega) (by omega) (by omega))
    (fun _ hx => ⟨.inl hx.1, fun hb => hx.2 hb hx.1⟩) fun _ _ hq => hq) ?_
  rintro pid _ ⟨⟨i, hi, hpid, rfl⟩, hbud₂⟩
  have hpb₂ : ({ s₁ with pidBitmap := s₁.pidBitmap.set i true } : Vm).pidBitmap = s.pidBitmap.set i true := by
    rw [← hg₁.rest.pidBitmap]
  rw [hg₁.rest.pidBitmap] at hi
  generalize s₁.pidBitmap.set i true = pb at *
  have h₂ : Kept L c s { s₁ with pidBitmap := pb } := h₁.record rfl rfl rfl rfl rfl rfl rfl rfl rfl fun _ _ => rfl
  have hc₂ : Fresh L s { s₁ with pidBitmap := pb } c 1 := hc₁.keep fun u f hu => by
    rw [show refs L { s₁ with pidBitmap := pb } = refs L s₁ from refs_congr rfl rfl]
    exact hu
  have ht₂ : ({ s₁ with pidBitmap := pb } : Vm).tasks = s.tasks := ht₁
  generalize ({ s₁ with pidBitmap := pb } : Vm) = s₂ at *
  -- the bitmap
  refine runs_seq (createUserVaddrBitmap_spec h₂ fun hb => ⟨hbud₂ hb, by omega, by omega⟩) ?_
  rintro u s₃ ⟨⟨hu, h₃, hk₃, hb₃, hbf₃, ⟨ht₃, hpb₃⟩, hfree₃, hz₃⟩, hbud₃⟩
  have hc₃ : Fresh L s s₃ c 1 := hc₂.keep fun u f hu => hk₃.refs_of hu
  -- the directory
  refine runs_seq (runs_mono (runs_within (B := B) (createPageDir_spec h₃.frames h₃.kernelBits c) fun hb =>
    createPageDir_costs.run (hbud₃ hb) (by omega) (by omega) (by omega) (by omega))
    (fun _ hx => ⟨.inl hx.1, fun hb => hx.2 hb hx.1⟩) fun _ _ hq => hq) ?_
  rintro _ s₄ ⟨⟨v, d, rfl, hk₄, hv₄, ⟨ht₄, hpb₄⟩, hd₄, hdz₄, -⟩, hbud₄⟩
  have h₄ : Kept L c s s₄ := h₃.trans hk₄
  have hc₄ : Fresh L s s₄ c 1 := hc₃.keep fun u f hu => hk₄.refs_of hu
  have hb₄ : Fresh L s s₄ u.bits bitmapPgCnt := hb₃.keep fun u f hu => hk₄.refs_of hu
  have hvs : Fresh L s s₄ v 1 := hv₄.since h₃
  have hcb : ∀ k, k < bitmapPgCnt → c ≠ u.bits + k := fun k hk => by
    obtain ⟨f, hf, -⟩ := hc₂.new 0 (by decide)
    exact hbf₃.disjoint hk hf
  have hcv : c ≠ v := by
    obtain ⟨f, hf, -⟩ := hc₃.new 0 (by decide)
    exact hv₄.disjoint (k := 0) (by decide) hf
  have hbv : ∀ k, k < bitmapPgCnt → u.bits + k ≠ v := fun k hk => by
    obtain ⟨f, hf, -⟩ := hb₃.new k hk
    exact hv₄.disjoint (k := 0) (by decide) hf
  rw [Option.getD_some, runs_change_bind]
  -- record and descriptors
  obtain ⟨fc, hfc, -, hfcun⟩ := hc₄.new 0 (by decide)
  rw [Nat.add_zero] at hfc
  have hkc := heap_kernel hc₄.heap
  generalize htc : (⟨pid, .ready, name, v, u, -1⟩ : TaskStruct) = tc
  have hpg : tc.pgdir = v := by rw [← htc]
  have hub : tc.userprogVaddr = u := by rw [← htc]
  have hlive : tc.live = true := by
    have hv0 : v ≠ 0 := fun h0 => by
      have := hv₄.heap
      rw [h0] at this
      exact absurd this (by decide)
    rw [← htc]
    unfold TaskStruct.live
    simp [hv0]
  have h₅ : Kept L c s (s₄.setTask c (some tc)) := h₄.record rfl rfl rfl rfl rfl rfl rfl rfl rfl fun q hq =>
    update_of_ne hq ..
  have hrefs₅ : refs L (s₄.setTask c (some tc)) = refs L s₄ := refs_congr rfl rfl
  have hph₅ : (s₄.setTask c (some tc)).phys = s₄.phys := rfl
  have ht₅ : (s₄.setTask c (some tc)).tasks c = some tc := update_self ..
  have hl₅ : (s₄.setTask c (some tc)).threadAllList = s.threadAllList := h₄.threadAllList
  have hfree₅ : (s₄.setTask c (some tc)).kernelVaddr.free + 22 ≤ s.kernelVaddr.free := by
    have hle₂ := h₂.free_le h.kernelBits
    have hle₄ : s₄.kernelVaddr.free ≤ s₃.kernelVaddr.free := hk₄.free_le h₃.kernelBits
    show s₄.kernelVaddr.free + 22 ≤ s.kernelVaddr.free
    omega
  have hpb₅ : (s₄.setTask c (some tc)).pidBitmap = s.pidBitmap.set i true := hpb₄.trans (hpb₃.trans hpb₂)
  have hbud₅ : B → Has (s₄.setTask c (some tc)).tasks a x e l (s₄.setTask c (some tc)) := fun hb =>
    ((hbud₄ hb).setTask c (some tc)).self.mono (by omega) (by omega) (by omega) (by omega)
  generalize s₄.setTask c (some tc) = s₅ at *
  have hfc₅ : refs L s₅ (.kernel c) = some fc := by rw [hrefs₅]; exact hfc
  have hc₅ : Fresh L s s₅ c 1 := hc₄.keep fun u f hu => by rw [hrefs₅]; exact hu
  rw [runs_bind_ok (blockDescInit_kernel hkc (by rw [walk_kernel (L := L) hkc]; exact hfc₅)), runs_change]
  obtain ⟨h₆, hst₆⟩ := h₅.store hc₅ (by decide : 0 < 1) hfc₅ (descBytes (4096 * c) (s₅.phys fc) uBlockDesc 16 descCnt)
  have hph₆ : (s₅.setPhys fc (descBytes (4096 * c) (s₅.phys fc) uBlockDesc 16 descCnt)).phys fc =
      descBytes (4096 * c) (s₅.phys fc) uBlockDesc 16 descCnt := phys_setPhys_self
  have hphne : ∀ g, g ≠ fc →
      (s₅.setPhys fc (descBytes (4096 * c) (s₅.phys fc) uBlockDesc 16 descCnt)).phys g = s₅.phys g := fun g hg =>
    phys_setPhys_ne hg
  have hl₆ : (s₅.setPhys fc (descBytes (4096 * c) (s₅.phys fc) uBlockDesc 16 descCnt)).threadAllList =
      s.threadAllList := hl₅
  have hpb₆ : (s₅.setPhys fc (descBytes (4096 * c) (s₅.phys fc) uBlockDesc 16 descCnt)).pidBitmap =
      s.pidBitmap.set i true := hpb₅
  have hfree₆ : (s₅.setPhys fc (descBytes (4096 * c) (s₅.phys fc) uBlockDesc 16 descCnt)).kernelVaddr.free + 22 ≤
      s.kernelVaddr.free := hfree₅
  have ht₆ : (s₅.setPhys fc (descBytes (4096 * c) (s₅.phys fc) uBlockDesc 16 descCnt)).tasks c = some tc := ht₅
  have hbud₆ : B → Has (s₅.setPhys fc (descBytes (4096 * c) (s₅.phys fc) uBlockDesc 16 descCnt)).tasks a x e l
    (s₅.setPhys fc (descBytes (4096 * c) (s₅.phys fc) uBlockDesc 16 descCnt)) := fun hb => (hbud₅ hb).of_eq rfl
  generalize s₅.setPhys fc (descBytes (4096 * c) (s₅.phys fc) uBlockDesc 16 descCnt) = s₆ at *
  have hrefs₆ : refs L s₆ = refs L s₄ := hst₆.refs.trans hrefs₅
  -- frames of different pages of the child are different
  have hne : ∀ {x y a b}, kHeapStart ≤ x → refs L s₄ (.kernel x) = some a → refs L s₄ (.kernel y) = some b → x ≠ y →
      a ≠ b := by
    rintro x y a b hx hxa hyb hxy rfl
    have he := h₄.frames.ok.kernel_only h₄.frames.kernel_base hx hxa hyb
    injection he with he
    exact hxy he.symm
  have hdfc : d ≠ fc := fun he => hne hv₄.heap hd₄ hfc (Ne.symm hcv) he
  have hdun : ∀ r, refs L s r ≠ some d := by
    obtain ⟨f, hf, -, hun⟩ := hvs.new 0 (by decide)
    rw [Nat.add_zero, hd₄] at hf
    cases hf
    exact hun
  have hLc : L c = none := by
    rw [← h.live]
    unfold Vm.spaces
    cases hu' : s.tasks c with
    | none => rfl
    | some u' => exact absurd (part_pcb hu') (h.not_part hc₁.heap (hc₁.old 0 (by decide)))
  have hunborn : s.tasks c = none := by
    by_contra hne
    obtain ⟨u', hu'⟩ := Option.ne_none_iff_exists'.1 hne
    exact h.not_part hc₁.heap (hc₁.old 0 (by decide)) (part_pcb hu')
  have hcne : s.cur ≠ c := by
    intro he
    rcases hcur with hm | hm
    · have := hc₁.heap
      rw [← he, hm] at this
      exact absurd this (by decide)
    · rw [he] at hm
      exact hm hunborn
  have hz : ∀ i, i < 768 → pdeAt s₆.phys d i = 0 := fun i hi => by
    unfold pdeAt
    rw [hphne d hdfc, hph₅]
    exact hdz₄ i hi
  obtain ⟨hf, hent⟩ := h₆.frames.addSpace hLc hv₄.heap (by rw [hrefs₆]; exact hd₄) (fun q hq => by
    obtain ⟨w, -, hw⟩ := h.frames.ok.dir q d hq
    exact hdun _ hw) hz
  have hpage : ∀ q w, entries (update L c (some d)) s₆ (.pte q w) = entries L s (.pte q w) := fun q w => by
    rw [hent, h₆.user _ (by simp)]
  have hrefs' : refs (update L c (some d)) s₆ = refs L s₄ := by
    rw [← hrefs₆]
    unfold refs
    rw [hent]
  have hkeep : ∀ {r f}, refs L s r = some f → refs (update L c (some d)) s₆ r = some f := fun hr => by
    rw [hrefs', ← hrefs₆]
    exact h₆.refs_of hr
  obtain ⟨hparts, hinj⟩ := newParts (t := tc) (c := c) hc₁ (by rw [hub]; exact hb₄) (by rw [hpg]; exact hvs)
    (by rw [hub]; exact hcb) (by rw [hpg]; exact hcv) (by rw [hub, hpg]; exact hbv)
  have hker : ∀ x w, entries L s (.kernel x) = some w → entries (update L c (some d)) s₆ (.kernel x) = some w :=
    fun x w hw => by
      rw [hent]
      exact h₆.kernel x w hw
  have huser : ∀ q t, s₆.tasks q = some t → t.live = true →
      UserSpace (update L c (some d)) s₆ q t.userprogVaddr := by
    intro q t ht hl
    by_cases hq : q = c
    · subst hq
      rw [ht₆] at ht
      cases ht
      rw [hub]
      have hfr : ∀ k, k < bitmapPgCnt → ∃ f, refs (update L q (some d)) s₆ (.kernel (u.bits + k)) = some f ∧
          (∀ q', update L q (some d) q' ≠ some f) ∧ s₆.phys f = zeros := by
        intro k hk
        obtain ⟨f, hf, -, hun⟩ := hb₃.new k hk
        have hf₄ := hk₄.refs_of hf
        refine ⟨f, by rw [hrefs']; exact hf₄, fun q' hq' => ?_, ?_⟩
        · by_cases hqq : q' = q
          · rw [hqq, update_self] at hq'
            cases hq'
            have hle := hb₃.heap
            exact hne (by omega) hf₄ hd₄ (hbv k hk) rfl
          · rw [update_of_ne hqq] at hq'
            obtain ⟨w, -, hw⟩ := h.frames.ok.dir q' f hq'
            exact hun _ hw
        · rw [hphne f fun he => hne hc₁.heap hfc hf₄ (hcb k hk) he.symm, hph₅, hk₄.phys f _ hf]
          exact hz₃ k f hk hf
      refine ⟨⟨hb₃.heap, fun k hk => ?_⟩, by rw [hu], by rw [hu], fun w hw => ?_, fun j hj => ?_⟩
      · obtain ⟨f, hf, hd, -⟩ := hfr k (by
          rw [hu] at hk
          exact lt_of_lt_of_le hk (show userBtmpLen / 4096 + 1 ≤ bitmapPgCnt by decide))
        exact ⟨f, hf, hd⟩
      · rw [hpage, (entries_dead (i := 0) hLc).2] at hw
        exact absurd rfl hw
      · have hidx : j / 8 / 4096 < bitmapPgCnt := by
          have hbound : 8 * userBtmpLen ≤ 8 * 4096 * bitmapPgCnt := by decide
          omega
        obtain ⟨f, hf, -, hzf⟩ := hfr _ hidx
        have hbit : (s₆.btmp u).bit j = false := by
          unfold Bitmap.bit Vm.btmp
          simp only
          rw [(refs_kernel.1 hf).2, hzf]
          simp [zeros]
        rw [hbit, hpage, (entries_dead (i := 0) hLc).2]
        simp
    · rw [h₆.tasks q hq] at ht
      have hus := h.user q t ht hl
      refine hus.congr (fun k f hk hf => ⟨hkeep hf, h₆.phys f _ hf, fun q' hq' => ?_⟩) fun w => by rw [hpage]
      by_cases hqq : q' = c
      · rw [hqq, update_self] at hq'
        exact hdun _ (Option.some.inj hq' ▸ hf)
      · rw [update_of_ne hqq] at hq'
        obtain ⟨-, hc⟩ := h.part_frame (part_map ht hl (hus.pages_lt hk)) hf hq'
        cases hc
  have hcow : Cow (update L c (some d)) s₆ := by
    intro q w x hx hxw r hr
    obtain ⟨q', rfl⟩ := hf.ok.page_only hf.pooled_base (refs_eq_some.2 ⟨x, hx, rfl⟩) hr
    rw [hpage] at hx
    have hr' : refs L s (.pte q' w) = some (x / 4096) := by
      unfold refs refsOf at hr ⊢
      rwa [hpage] at hr
    exact h.cow q w x hx hxw _ hr'
  have hsound := h.addProcess (t := tc) hfew hf h₆.kernelBits h₆.room hker h₆.tasks ht₆ hlive
    (by rw [hrefs', hpg]; exact hd₄) hparts (fun a w ha => ?_) hinj huser hcow h₆.cur h₆.cr3 hcne
  · refine ⟨c, d, tc, hsound.relist _ _, ⟨⟨h₆.kernelStart, h₆.kernelSize, h₆.userStart, h₆.userSize⟩, hunborn, ht₆,
      h₆.tasks, ?_, ⟨i, hi, by rw [← htc, hpid], hpb₆⟩, hparts, fun q w => ?_, fun x w hw => ?_, h₆.phys, ⟨fc, s₅.phys fc, ?_, hph₆⟩, by rw [← hl₆],
      h₆.cur, h₆.cr3⟩, hfree₆, fun hb => Has.of_eq (hbud₆ hb) rfl⟩
    · rw [← htc, ← hu]
    · rw [← hpage]
      exact congrFun (entries_congr rfl rfl) _
    · rw [← hker x w hw]
      exact congrFun (entries_congr rfl rfl) _
    · rw [← hfc, ← congrFun hrefs' (.kernel c)]
      exact congrFun (refs_congr rfl rfl) _
  · rcases hdec : a with _ | _ | k
    · rw [hdec] at ha
      cases ha
      exact (refs_kernel.1 (by rw [hrefs']; exact hfc : refs (update L c (some d)) s₆ (.kernel c) = some fc)).1
    · rw [hdec, show tc.part c .dir = some tc.pgdir from if_neg (TaskStruct.live_pgdir hlive), hpg] at ha
      cases ha
      exact (refs_kernel.1 (by rw [hrefs']; exact hd₄ : refs (update L c (some d)) s₆ (.kernel v) = some d)).1
    · rw [hdec] at ha
      simp only [TaskStruct.part, hub] at ha
      split at ha
      · rename_i hk
        cases ha
        obtain ⟨f, hf, -⟩ := hb₄.new k hk.2
        exact (refs_kernel.1 (by rw [hrefs']; exact hf :
          refs (update L c (some d)) s₆ (.kernel (u.bits + k)) = some f)).1
      · cases ha

/-- `process_execute`. -/
theorem Sound.processExecute (h : Sound L s) (hfew : alive L + 1 < 256)
    (hcur : s.cur = mainThread ∨ s.tasks s.cur ≠ none) (name : List UInt8) :
    runs ExecuteStop (processExecute name) (fun _ s' => ∃ c d tc, Sound (update L c (some d)) s' ∧
      HasExecuted L s s' c d name tc) s := by
  refine runs_mono (h.processExecute_within (B := False) (a := 0) (x := 0) (e := 0) (l := 0) hfew hcur name
    fun hb => hb.elim) (fun _ hx => hx.1) ?_
  rintro - s' ⟨c, d, tc, hs, he, -⟩
  exact ⟨c, d, tc, hs, he⟩

end

end Enix.Memory
