import Enix.Memory.Progress

/-!
# When an allocation of `sys_fork` fails

`ForkClean`: the call returns, with -1 and no trace or with the pid of a child
that shares neither bitmap nor directory. `forkClean_iff`: that is so exactly
when every allocation succeeds. When `kernel_vaddr` has no row of clear bits
for the child's bitmap, `copy_pcb_vaddrbitmap_stack0` returns -1, and
`copy_process` takes only 1 for a failure: the child is made all the same, and
its bitmap is that of its parent (`Sharing`, `Sound.fork_sharing`). The other
allocations do not fail but stop at the ASSERT of `bitmap_scan`.
-/
set_option autoImplicit false

namespace Enix.Memory
open Enix.Core Enix.Kernel Function

/-- No record, pid, page or list entry has been taken. -/
structure NoTrace (s s' : Vm) : Prop where
  tasks : s'.tasks = s.tasks
  threadAllList : s'.threadAllList = s.threadAllList
  pidBitmap : s'.pidBitmap = s.pidBitmap
  kernelVaddr : s'.kernelVaddr = s.kernelVaddr
  kernelPte : s'.kernelPte = s.kernelPte
  kernelPool : s'.kernelPool = s.kernelPool
  userPool : s'.userPool = s.userPool
  mem : s'.mem = s.mem

/-- No other task has the bitmap or the directory of task `c`. -/
def Separate (s : Vm) (c : Nat) (tc : TaskStruct) : Prop := ∀ q t, q ≠ c → s.tasks q = some t → t.live = true →
  t.userprogVaddr.bits ≠ tc.userprogVaddr.bits ∧ t.pgdir ≠ tc.pgdir

/-- `sys_fork` does not stop for want of memory; it returns -1 and leaves no
trace, or the pid of a child of its own. -/
def ForkClean (s : Vm) : Prop := runs Enough sysFork (fun r s' => (r = -1 → NoTrace s s') ∧
  (r ≠ -1 → ∃ c tc, s.tasks c = none ∧ s'.tasks c = some tc ∧ tc.pid = r ∧ Separate s' c tc)) s

/-- There is a pid, the scans of `kernel_vaddr` find what they look for, and the
kernel pool has the frames: one for the record, 23 for the bitmap, one for the
directory, and one for each page table. -/
structure ForkRoom (s : Vm) (t : TaskStruct) : Prop where
  finds : s.forkFinds 0
  frames : 25 + tableCnt (s.btmp t.userprogVaddr) ≤ s.kernelPool.poolBitmap.free
  pids : 0 < s.pidBitmap.free

/-- Process `p` has a child `c`, with directory `d` and record `tc`, that has its
pages and its bitmap. -/
structure Sharing (L : Spaces) (s s' : Vm) (p c d : Nat) (t tc : TaskStruct) : Prop where
  frames : Frames (update L c (some d)) quits s'
  kernelBits : KernelBits s'
  ne : c ≠ p
  unborn : s.tasks c = none
  record : s'.tasks c = some tc
  others : ∀ q, q ≠ c → s'.tasks q = s.tasks q
  made : ∃ pid, pid ≠ -1 ∧ tc = { t.unmapped pid with pgdir := tc.pgdir }
  dir : kHeapStart ≤ tc.pgdir ∧ refs (update L c (some d)) s' (.kernel tc.pgdir) = some d
  newDir : entries L s (.kernel tc.pgdir) = none
  user : UserSpace (update L c (some d)) s' p t.userprogVaddr
  parent : ∀ v, entries (update L c (some d)) s' (.pte p v) = (refs L s (.pte p v)).map (· * 4096 + pgRo)
  child : ∀ v, entries (update L c (some d)) s' (.pte c v) = (refs L s (.pte p v)).map (· * 4096 + pgRo)
  kernel : ∀ u w, entries L s (.kernel u) = some w → entries (update L c (some d)) s' (.kernel u) = some w
  threadAllList : s'.threadAllList = s.threadAllList ++ [c]
  cur : s'.cur = s.cur
  cr3 : s'.cr3 = s.cr3

/-- `"init"`. -/
def initName : List UInt8 := [105, 110, 105, 116]

section
variable {L : Spaces} {s s₁ s' : Vm} {t tc : TaskStruct} {r : Ref} {a c d e f g i j k n p q v w : Nat}

theorem Vm.forkFinds.bitmapRoom (h : s.forkFinds e) : s.bitmapRoom = true := by
  obtain ⟨i, j, -, hi, hj, -⟩ := h
  have hset : (s.kernelVaddr.set i true).scan bitmapPgCnt = some (j : Int) := hj
  unfold Vm.bitmapRoom
  rw [hi]
  simp only [Int.toNat_natCast]
  rw [hset]
  refine bne_iff_ne.2 fun hc => ?_
  injection hc with hc
  omega

/-- In a sound state every live task is by itself. -/
theorem Sound.separate (h : Sound L s) (hc : s.tasks c = some tc) (hl : tc.live = true) : Separate s c tc := by
  intro q t hq ht hlt
  constructor
  · intro he
    have h₁ := part_map ht hlt (by decide : 0 < bitmapPgCnt)
    have h₂ := part_map hc hl (by decide : 0 < bitmapPgCnt)
    rw [he] at h₁
    exact hq (h.own _ _ _ _ _ h₁ h₂).1
  · intro he
    have h₁ := part_dir ht (TaskStruct.live_pgdir hlt)
    have h₂ := part_dir hc (TaskStruct.live_pgdir hl)
    rw [he] at h₁
    exact hq (h.own _ _ _ _ _ h₁ h₂).1

theorem HasForked.live (hs : Sound (update L c (some d)) s') (hf : HasForked L s s' p c d t tc) : tc.live = true := by
  obtain ⟨t', ht', hl', -⟩ := hs.dir_ref (update_self ..)
  rw [hf.record] at ht'
  cases ht'
  exact hl'

/-! ## No room for the bitmap -/

/-- `get_kernel_pages` finds no run of clear bits. -/
theorem getKernelPages_none (hn : 0 < n) (hn' : n < 3840) (h : s.kernelVaddr.scan n = some (-1)) :
    getKernelPages n s = .ok (none, s) := by
  have hv : vaddrGet .kernel n s = .ok (none, s) := by
    unfold vaddrGet
    simp only
    rw [bind_ok (read_run _ s), h]
    rfl
  have hm : mallocPage .kernel n s = .ok (none, s) := by
    unfold mallocPage
    rw [bind_ok (guard_run ⟨hn, hn'⟩ _ s), bind_ok hv]
    rfl
  unfold getKernelPages
  rw [bind_ok hm]
  rfl

/-- The child is made with the bitmap of its parent; with a budget `B` the call
does not run out of memory. -/
theorem Sound.fork_sharing {B : Prop} {x l : Nat} (h : Sound L s) (ht : s.tasks s.cur = some t) (hl : t.live = true)
    (hfew : alive L + 1 < 256) (hroom : s.bitmapRoom = false)
    (hB : B → Has s.tasks (2 + tableCnt (s.btmp t.userprogVaddr) + a) x (2 + e) (1 + l) s) :
    runs (fun y => OutOfMemory y ∧ (B → Enough y)) Memory.sysFork (fun r s' => ∃ c d tc,
      Sharing L s s' s.cur c d t tc ∧ r = tc.pid ∧ (B → Has s'.tasks a x e l s')) s := by
  obtain ⟨hpcb, hpf⟩ := h.live_ref ht hl (part_pcb ht)
  unfold Memory.sysFork
  rw [runs_read_bind]
  refine runs_seq (runs_within (B := B) (getPage_kept h.frames h.kernelBits 0) fun hb =>
    getKernelPages_run (n := 1) (k := 1 + tableCnt (s.btmp t.userprogVaddr) + a) (p := 1 + e)
      ((hB hb).mono (by omega) (le_refl x) (by omega) (le_refl (1 + l)))) ?_
  rintro _ s₁ ⟨⟨c, rfl, _, hc₁, ht₁, hg₁⟩, hb₁⟩
  have h₁ : Kept L c s s₁ := (Kept.refl h.frames h.kernelBits c).got hg₁
  have hpc : s.cur ≠ c := by
    obtain ⟨f, hf⟩ := hpf
    exact hc₁.disjoint (k := 0) (by decide) hf
  have hscan : s₁.kernelVaddr.scan bitmapPgCnt = some (-1) := by
    obtain ⟨i, hi, -, hkv⟩ := hg₁.run
    unfold Vm.bitmapRoom at hroom
    rw [hi] at hroom
    rw [hkv]
    simpa [setRange] using hroom
  simp only
  rw [runs_bind_ok (task_run (by rw [ht₁]; exact ht)), runs_bind_ok (guard_run (TaskStruct.live_pgdir hl) _ s₁)]
  unfold copyProcess
  simp only [runs_bind]
  refine copyPcb_head h₁ hc₁ ht hpc hpcb hpf (fun hn => ⟨.inl rfl, fun hb => absurd hn (hb₁ hb).2.pid_found⟩)
    fun pid s₂ hr => ?_
  -- `get_kernel_pages` returns NULL, and `copy_pcb_vaddrbitmap_stack0` -1
  rw [runs_bind_ok (getKernelPages_none (by decide) (by decide) (by rw [hr.kernelVaddr]; exact hscan)), runs_pure,
    if_neg (by decide)]
  simp only [runs_bind]
  -- the child goes on without one
  have hhas₂ : B → Has s₂.tasks (1 + tableCnt (s.btmp t.userprogVaddr) + a) x (1 + e) l s₂ := fun hb => hr.has (hb₁ hb).2
  refine runs_mono (runs_within (B := B) (createPageDir_spec hr.kept.frames hr.kept.kernelBits c) fun hb =>
    createPageDir_found (k := tableCnt (s.btmp t.userprogVaddr) + a) (p := e)
      ((hhas₂ hb).mono (by omega) (le_refl x) (le_refl (1 + e)) (le_refl l)) ((hhas₂ hb).finds (by decide)))
    (fun _ hx => hx) ?_
  rintro _ s₃ ⟨⟨v, d, rfl, hk₃, hv₃, ⟨ht₃, -⟩, hd₃, hz₃, -⟩, hb₃⟩
  rw [runs_ok (task_run (by rw [ht₃]; exact hr.record)), runs_change, if_neg (by simp), Option.getD_some]
  obtain ⟨hkept, hframes, hent, hforking⟩ := h.forking ht hl hfew hc₁ hr.kept hv₃ hk₃ hd₃ hz₃
    (rfl : ({ t.unmapped pid with pgdir := v } : TaskStruct).pgdir = v)
  have hbtmp := h.tableCnt_kept ht hl hkept
  have hhas₄ : B → Has (s₃.setTask c (some { t.unmapped pid with pgdir := v })).tasks (tableCnt (s.btmp t.userprogVaddr) + a) x
    e l (s₃.setTask c (some { t.unmapped pid with pgdir := v })) := fun hb => ((hb₃ hb).setTask c _).self
  have hent₃ : entries L (s₃.setTask c (some { t.unmapped pid with pgdir := v })) = entries L s₃ := entries_congr rfl rfl
  generalize s₃.setTask c (some { t.unmapped pid with pgdir := v }) = s₄ at *
  refine runs_seq (runs_within (B := B) (copyPageTables_spec hframes hforking) fun hb =>
    copyPageTables_has (a := a) (b := x) (e := e) (l := l) hframes hforking rfl
      ((hhas₄ hb).mono (by rw [hbtmp]) (le_refl x) (le_refl e) (le_refl l))) ?_
  rintro _ s₅ ⟨h₅, hb₅⟩
  rw [runs_pure, if_neg (by decide)]
  simp only [runs_bind, runs_change]
  have htc : s₅.tasks c = some { t.unmapped pid with pgdir := v } := by
    rw [h₅.rest.tasks]
    exact hforking.child
  rw [runs_ok (task_run (show ({ s₅ with threadAllList := s₅.threadAllList ++ [c] } : Vm).tasks c = _ from htc)),
    runs_pure]
  have hold : ∀ r, (∀ u, r ≠ .kernel u) → entries (update L c (some d)) s₄ r = entries L s r := fun r hr => by
    rw [hent, ← hent₃, hkept.user r hr]
  have hpages := h₅.pages (s := s) fun v => hold (.pte s.cur v) (by simp)
  have hlast : entries (update L c (some d)) { s₅ with threadAllList := s₅.threadAllList ++ [c] } =
      entries (update L c (some d)) s₅ := entries_congr rfl rfl
  have hrefs : refs (update L c (some d)) { s₅ with threadAllList := s₅.threadAllList ++ [c] } =
      refs (update L c (some d)) s₅ := refs_congr rfl rfl
  refine ⟨c, d, _, ⟨?_, ?_, Ne.symm hpc, ?_, htc, fun q hq => ?_, ⟨pid, hr.newPid_lt, rfl⟩, ⟨hforking.childDir.1, ?_⟩,
    ?_, ?_, fun w => ?_, fun w => ?_, fun u w hw => ?_, ?_, ?_, ?_⟩, rfl, fun hb => Has.of_eq (hb₅ hb).self rfl⟩
  · unfold Frames
    rw [hlast]
    exact h₅.frames.of_eq rfl rfl rfl
  · refine ⟨?_, ?_⟩
    · show ∀ j, present (s₅.kernelPte (kHeapStart + j)) = true → s₅.kernelVaddr.bit j = true
      rw [h₅.kernelPte, h₅.kernelVaddr]
      exact hkept.kernelBits.set
    · show ∀ j, j < s₅.kernelVaddr.size → s₅.kernelVaddr.bit j = true → present (s₅.kernelPte (kHeapStart + j)) = true
      rw [h₅.kernelPte, h₅.kernelVaddr]
      exact hkept.kernelBits.mapped
  · by_contra hne
    obtain ⟨u, hu⟩ := Option.ne_none_iff_exists'.1 hne
    exact h.not_part hc₁.heap (hc₁.old 0 (by decide)) (part_pcb hu)
  · show s₅.tasks q = s.tasks q
    rw [h₅.rest.tasks, hkept.tasks q hq]
  · rw [hrefs]
    exact h₅.refs_of hforking hforking.childDir.2
  · exact (hv₃.since hr.kept).old 0 (by decide)
  · refine hforking.user.congr (fun k f hk hf => ?_) fun w => ?_
    · obtain ⟨g, hg, hpl⟩ := hforking.user.frame hframes hk
      rw [hf] at hg
      cases hg
      exact ⟨by rw [hrefs]; exact h₅.refs_of hforking hf, h₅.phys f _ hf hpl, hpl.1⟩
    · rw [hlast, (hpages w).1, hold _ (by simp), Option.map_eq_none_iff, refs_eq_none]
  · rw [hlast]
    exact (hpages w).1
  · rw [hlast]
    exact (hpages w).2
  · rw [hlast]
    have hk := hkept.kernel u w hw
    rw [entries_kernel] at hk ⊢
    rwa [h₅.kernelPte]
  · show s₅.threadAllList ++ [c] = s.threadAllList ++ [c]
    rw [h₅.rest.threadAllList, hkept.threadAllList]
  · exact h₅.rest.cur.trans hkept.cur
  · exact h₅.rest.cr3.trans hkept.cr3

/-- The child is made with the bitmap of its parent. -/
theorem Sound.fork_shares (h : Sound L s) (ht : s.tasks s.cur = some t) (hl : t.live = true)
    (hfew : alive L + 1 < 256) (hroom : s.bitmapRoom = false) :
    runs OutOfMemory Memory.sysFork (fun r s' => r ≠ -1 ∧ s'.tasks s.cur = some t ∧ ∃ c tc, c ≠ s.cur ∧
      (∀ q, q ≠ c → s'.tasks q = s.tasks q) ∧ s'.tasks c = some tc ∧ tc.pid = r ∧
      tc.userprogVaddr.bits = t.userprogVaddr.bits) s := by
  refine runs_mono (h.fork_sharing (B := False) (a := 0) (e := 0) (x := 0) (l := 0) ht hl hfew hroom fun hb => hb.elim)
    (fun _ hx => hx.1) ?_
  rintro r s' ⟨c, d, tc, hsh, rfl, -⟩
  obtain ⟨pid, hpid, hmade⟩ := hsh.made
  refine ⟨by rw [hmade]; exact hpid, ?_, c, tc, hsh.ne, hsh.others, hsh.record, rfl, by rw [hmade]; rfl⟩
  rw [hsh.others _ (Ne.symm hsh.ne)]
  exact ht

/-! ## What a fork takes -/

/-- Without a pid the call stops. -/
theorem Sound.fork_pid (h : Sound L s) (ht : s.tasks s.cur = some t) (hl : t.live = true) :
    runs (fun _ => True) Memory.sysFork (fun _ _ => 0 < s.pidBitmap.free) s := by
  have hconst : ∀ {α : Type} (m : M α) s₁, 0 < s.pidBitmap.free →
      runs (fun _ => True) m (fun _ _ => 0 < s.pidBitmap.free) s₁ := by
    intro α m s₁ hpos
    unfold runs
    split
    · exact hpos
    · trivial
  obtain ⟨hpcb, hpf⟩ := h.live_ref ht hl (part_pcb ht)
  unfold Memory.sysFork
  rw [runs_read_bind]
  refine runs_seq (runs_mono (getPage_kept h.frames h.kernelBits 0) (fun _ _ => trivial) fun _ _ hq => hq) ?_
  intro _ s₁ ⟨c, hr₁, _, hc₁, ht₁, hg₁⟩
  subst hr₁
  have hpc : s.cur ≠ c := by
    obtain ⟨f, hf⟩ := hpf
    exact hc₁.disjoint (k := 0) (by decide) hf
  simp only
  rw [runs_bind_ok (task_run (by rw [ht₁]; exact ht)), runs_bind_ok (guard_run (TaskStruct.live_pgdir hl) _ s₁)]
  unfold copyProcess
  simp only [runs_bind]
  refine copyPcb_head ((Kept.refl h.frames h.kernelBits c).got hg₁) hc₁ ht hpc hpcb hpf (fun _ => trivial)
    fun pid s₂ hr => ?_
  have hleft := hr.pidLeft
  rw [hg₁.rest.pidBitmap] at hleft
  obtain ⟨i, hi⟩ := Option.ne_none_iff_exists'.1 hleft
  obtain ⟨n, -, hn, hc⟩ := Bitmap.scan_one_lt hi
  have hpos := Bitmap.free_pos hn hc
  refine runs_post (hconst _ s₂ hpos) fun r s₃ _ => ?_
  by_cases h1 : r = 1
  · rw [if_pos h1, runs_pure]
    exact hconst _ s₃ hpos
  · rw [if_neg h1]
    exact runs_post (hconst _ s₃ hpos) fun r s₄ _ => hconst _ s₄ hpos

/-- The references that a fork adds. -/
def newRefs (s : Vm) (t tc : TaskStruct) (c : Nat) : Finset Ref :=
  (((Finset.range bitmapPgCnt).image fun k => Ref.kernel (tc.userprogVaddr.bits + k)) ∪
    {.kernel c, .kernel tc.pgdir}) ∪ (tablesFrom (s.btmp t.userprogVaddr) 0).image (.pde c)

/-- They are one for each page of the child and for each page table. -/
theorem newRefs_card (h : Sound L s') (hc : s'.tasks c = some tc) (hl : tc.live = true) :
    (newRefs s t tc c).card = 25 + tableCnt (s.btmp t.userprogVaddr) := by
  have hmap := fun k (hk : k < bitmapPgCnt) => part_map hc hl hk
  have hpcb := part_pcb hc
  have hdir := part_dir hc (TaskStruct.live_pgdir hl)
  have hcd : c ≠ tc.pgdir := fun he => by
    rw [← he] at hdir
    exact absurd (h.own _ _ _ _ _ hpcb hdir).2 (by simp)
  have hcm : ∀ k, k < bitmapPgCnt → tc.userprogVaddr.bits + k ≠ c := fun k hk he => by
    have := hmap k hk
    rw [he] at this
    exact absurd (h.own _ _ _ _ _ this hpcb).2 (by simp)
  have hdm : ∀ k, k < bitmapPgCnt → tc.userprogVaddr.bits + k ≠ tc.pgdir := fun k hk he => by
    have := hmap k hk
    rw [he] at this
    exact absurd (h.own _ _ _ _ _ this hdir).2 (by simp)
  have hcnt : bitmapPgCnt = 23 := by decide
  unfold newRefs tableCnt
  rw [Finset.card_union_of_disjoint, Finset.card_union_of_disjoint, Finset.card_image_of_injective,
    Finset.card_image_of_injective, Finset.card_range, Finset.card_pair (by simpa using hcd), hcnt]
  · intro i j hij
    simpa using hij
  · intro i j hij
    simpa using hij
  · refine Finset.disjoint_left.2 fun r hr hr' => ?_
    obtain ⟨k, hk, rfl⟩ := Finset.mem_image.1 hr
    rw [Finset.mem_range] at hk
    simp only [Finset.mem_insert, Finset.mem_singleton, Ref.kernel.injEq] at hr'
    rcases hr' with he | he
    · exact hcm k hk he
    · exact hdm k hk he
  · refine Finset.disjoint_left.2 fun r hr hr' => ?_
    obtain ⟨e, -, rfl⟩ := Finset.mem_image.1 hr'
    simp at hr

/-- References of before the fork are still there. -/
theorem HasForked.keeps (h : Sound L s) (hf : HasForked L s s' p c d t tc)
    (hpde : ∀ q i w, entries L s (.pde q i) = some w → entries (update L c (some d)) s' (.pde q i) = some w)
    (hr : refs L s r = some g) : refs (update L c (some d)) s' r = some g := by
  obtain ⟨w, hw, rfl⟩ := refs_eq_some.1 hr
  cases r with
  | kernel u => exact refs_eq_some.2 ⟨w, hf.kernel u w hw, rfl⟩
  | pde q i => exact refs_eq_some.2 ⟨w, hpde q i w hw, rfl⟩
  | pte q v =>
    by_cases hqp : q = p
    · subst hqp
      refine refs_eq_some.2 ⟨w / 4096 * 4096 + pgRo, ?_, frame_pgRo _⟩
      rw [hf.parent, hr]
      rfl
    · by_cases hqc : q = c
      · subst hqc
        have hL : L q = none := by
          rw [← h.live]
          unfold Vm.spaces
          rw [hf.unborn]
          rfl
        rw [(entries_dead (i := 0) hL).2] at hw
        cases hw
      · exact refs_eq_some.2 ⟨w, by rw [hf.page q v hqp hqc]; exact hw, rfl⟩

/-- What they refer to is a frame of the kernel pool. -/
theorem HasForked.newRefs_new (h : Sound L s) (ht : s.tasks p = some t) (hlt : t.live = true)
    (hs : Sound (update L c (some d)) s') (hf : HasForked L s s' p c d t tc) (hr : r ∈ newRefs s t tc c) :
    refs L s r = none ∧ (∀ q v, r ≠ .pte q v) ∧
      ∃ g, refs (update L c (some d)) s' r = some g ∧ s.Holds .kernel g := by
  have hl := hf.live hs
  have hkernel : ∀ b v, tc.part c b = some v → refs L s (.kernel v) = none ∧
      ∃ g, refs (update L c (some d)) s' (.kernel v) = some g ∧ s.Holds .kernel g := by
    intro b v hb
    obtain ⟨hheap, hnone⟩ := hf.parts b v hb
    have hpart : s'.part c b = some v := by
      unfold Vm.part
      rw [hf.record]
      exact hb
    have hmain : ¬ (c = mainThread ∧ b = .pcb) := fun hm => by
      have := hs.main tc (by rw [← hm.1]; exact hf.record)
      exact TaskStruct.live_pgdir hl this
    obtain ⟨g, hg⟩ := hs.part_ref hpart hmain |>.2
    have hhome := hs.frames.ok.home _ _ hg
    rw [home_kernel hheap, hf.toSamePools.holds] at hhome
    exact ⟨refs_eq_none.2 hnone, g, hg, hhome⟩
  unfold newRefs at hr
  simp only [Finset.mem_union, Finset.mem_image, Finset.mem_range, Finset.mem_insert, Finset.mem_singleton] at hr
  have hpart : ∀ b, tc.part c b = s'.part c b := fun b => by
    unfold Vm.part
    rw [hf.record]
    rfl
  rcases hr with (⟨k, hk, rfl⟩ | rfl | rfl) | ⟨e, he, rfl⟩
  · obtain ⟨h1, h2⟩ := hkernel (.map k) _ (by rw [hpart]; exact part_map hf.record hl hk)
    exact ⟨h1, fun _ _ => by simp, h2⟩
  · obtain ⟨h1, h2⟩ := hkernel .pcb _ (by rw [hpart]; exact part_pcb hf.record)
    exact ⟨h1, fun _ _ => by simp, h2⟩
  · obtain ⟨h1, h2⟩ := hkernel .dir _ (by rw [hpart]; exact part_dir hf.record (TaskStruct.live_pgdir hl))
    exact ⟨h1, fun _ _ => by simp, h2⟩
  · -- a page of the parent under the entry
    simp only [tablesFrom, Finset.mem_filter] at he
    obtain ⟨v, hv, h1, h2, hb⟩ := overUsed_iff.1 he.2.1
    have hlast : userVaddrStart + 8 * userBtmpLen = kernelBase := by decide
    have hpage := ((h.user p t ht hlt).bit (v - userVaddrStart) (by omega)).1 hb
    rw [show userVaddrStart + (v - userVaddrStart) = v by omega] at hpage
    obtain ⟨w, hw⟩ := Option.ne_none_iff_exists'.1 hpage
    have hchild : entries (update L c (some d)) s' (.pte c v) = some (w / 4096 * 4096 + pgRo) := by
      rw [hf.child, refs_eq_some.2 ⟨w, hw, rfl⟩]
      rfl
    obtain ⟨d', -, -, -, hpde⟩ := pde_of_pte hchild
    rw [hv] at hpde
    have href := refs_eq_some.2 ⟨_, hpde, rfl⟩
    have hhome := hs.frames.ok.home _ _ href
    unfold Home at hhome
    rw [hf.toSamePools.holds] at hhome
    refine ⟨refs_eq_none.2 (entries_dead (v := 0) ?_).1, fun _ _ => by simp, _, href, hhome⟩
    rw [← h.live]
    unfold Vm.spaces
    rw [hf.unborn]
    rfl

/-- So many frames were free. -/
theorem HasForked.frames_free (h : Sound L s) (ht : s.tasks p = some t) (hlt : t.live = true)
    (hs : Sound (update L c (some d)) s') (hf : HasForked L s s' p c d t tc)
    (hpde : ∀ q i w, entries L s (.pde q i) = some w → entries (update L c (some d)) s' (.pde q i) = some w) :
    25 + tableCnt (s.btmp t.userprogVaddr) ≤ s.kernelPool.poolBitmap.free := by
  have hbase := h.frames.base
  have hsplit := h.frames.split
  rw [← newRefs_card hs hf.record (hf.live hs)]
  -- the place of the frame in the bitmap
  have hinj : Set.InjOn (fun r => (refs (update L c (some d)) s' r).getD 0 - memBase) (newRefs s t tc c : Set Ref) := by
    intro r hr r' hr' he
    obtain ⟨-, hr₁, g, hg, hg₁, -⟩ := hf.newRefs_new h ht hlt hs hr
    obtain ⟨-, -, g', hg', hg₂, -⟩ := hf.newRefs_new h ht hlt hs hr'
    simp only [Vm.pool_kernel, hbase] at hg₁ hg₂
    simp only [hg, hg', Option.getD_some] at he
    have heq : g = g' := by omega
    subst heq
    cases hs.frames.ok.shared r r' g hg hg' hg₁ with
    | inl hrr => exact hrr
    | inr hpte =>
      obtain ⟨q, -, v, hq, -⟩ := hpte
      exact absurd hq (hr₁ q v)
  rw [← Finset.card_image_of_injOn hinj]
  refine Bitmap.card_le_free fun i hi => ?_
  obtain ⟨r, hr, rfl⟩ := Finset.mem_image.1 hi
  obtain ⟨hnone, hr₁, g, hg, hg₁, hg₂⟩ := hf.newRefs_new h ht hlt hs hr
  simp only [hg, Option.getD_some]
  have hpool : s.Pooled g := .inl ⟨hg₁, hg₂⟩
  simp only [Vm.pool_kernel, hbase] at hg₁ hg₂
  refine ⟨by omega, ?_⟩
  -- nothing refers to the frame before
  have hun : ∀ r', refsOf (entries L s) r' ≠ some g := fun r' hr' => by
    have hkeep := hf.keeps h hpde hr'
    cases hs.frames.ok.shared r r' g hg hkeep hg₁ with
    | inl hrr =>
      rw [← hrr] at hr'
      rw [show refsOf (entries L s) r = none from hnone] at hr'
      cases hr'
    | inr hpte =>
      obtain ⟨q, -, v, hq, -⟩ := hpte
      exact hr₁ q v hq
  have hmem : s.mem g = 0 := by
    have hbal := h.frames.bal g hpool
    rw [(refCount_eq_zero h.frames.ok.fin).2 hun] at hbal
    have hq : (quits g : Int) = 0 := rfl
    omega
  have hbit : s.frameBit g = false := by
    rw [Bool.eq_false_iff]
    intro hb
    have := (h.frames.bits g hpool).1 hb
    omega
  unfold Vm.frameBit at hbit
  rw [if_neg (by omega), hbase] at hbit
  exact hbit

/-! ## The condition -/

/-- With room, only the name can be in the way. -/
theorem Sound.fork_room (h : Sound L s) (ht : s.tasks s.cur = some t) (hl : t.live = true)
    (hfew : alive L + 1 < 256) (hsmall : s.small) (hroom : ForkRoom s t) :
    runs (fun y => y = .assertion .forkName ∧ 16 ≤ t.name.length) Memory.sysFork (fun r s' => ∃ c d tc,
      Sound (update L c (some d)) s' ∧ HasForked L s s' s.cur c d t tc ∧ r = tc.pid) s := by
  have hframes := hroom.frames
  have hpids := hroom.pids
  have hhas : Has s.tasks (25 + tableCnt (s.btmp t.userprogVaddr) + 0) 0 0 (1 + 0) s := by
    refine ⟨rfl, hsmall, ?_, Nat.zero_le _, ⟨0, Nat.zero_le _, fun j h1 h2 => absurd h2 (by omega)⟩, by omega⟩
    rw [Nat.add_zero]
    exact hframes
  refine runs_mono (h.sysFork_within (B := True) ht hl hfew hroom.finds.bitmapRoom fun _ => ⟨hhas, hroom.finds⟩) ?_ ?_
  · intro y ⟨hstop, henough⟩
    cases hstop with
    | inl hy => exact absurd hy (henough trivial)
    | inr hy => exact hy
  · intro r s' ⟨c, d, tc, hs', hf, hr, _⟩
    exact ⟨c, d, tc, hs', hf, hr⟩

/-- `sys_fork` of a process is clean exactly when its allocations succeed. -/
theorem forkClean_iff (h : Sound L s) (ht : s.tasks s.cur = some t) (hl : t.live = true)
    (hfew : alive L + 1 < 256) (hsmall : s.small) (hname : t.name.length < 16) :
    ForkClean s ↔ ForkRoom s t := by
  constructor
  · intro hclean
    unfold ForkClean at hclean
    cases hroom : s.bitmapRoom with
    | false =>
      have hshare := h.fork_shares ht hl hfew hroom
      cases hres : Memory.sysFork s with
      | error x =>
        have henough : Enough x := runs_of_error hclean hres
        exact absurd (runs_of_error hshare hres) henough
      | ok x =>
        obtain ⟨r, s'⟩ := x
        obtain ⟨hr, hpar, c, tc, hc, hothers, htc, hpid, hbits⟩ := runs_of_ok hshare hres
        obtain ⟨c', tc', hno, htc', -, hsep⟩ := (runs_of_ok hclean hres).2 hr
        have hcc : c' = c := by
          by_contra hne
          rw [hothers c' hne, hno] at htc'
          cases htc'
        subst hcc
        rw [htc] at htc'
        cases htc'
        exact absurd hbits.symm (hsep s.cur t (Ne.symm hc) hpar hl).1
    | true =>
      have hwithin := h.sysFork_within (B := False) (a := 0) (x := 0) (q := 0) (e := 0) (l := 0) ht hl hfew hroom
        fun hb => hb.elim
      have hpid := h.fork_pid ht hl
      cases hres : Memory.sysFork s with
      | error x =>
        have henough : Enough x := runs_of_error hclean hres
        cases (runs_of_error hwithin hres).1 with
        | inl hx => exact absurd hx henough
        | inr hx => exact absurd hx.2 (by omega)
      | ok x =>
        obtain ⟨r, s'⟩ := x
        obtain ⟨c, d, tc, hs', hf, -, hpde, ⟨hfinds, -⟩, -⟩ := runs_of_ok hwithin hres
        have hpos := runs_of_ok (P := fun _ _ => 0 < s.pidBitmap.free) hpid hres
        exact ⟨hfinds, hf.frames_free h ht hl hs' hpde, hpos⟩
  · intro hroom
    refine runs_mono (h.fork_room ht hl hfew hsmall hroom) (fun _ hx => absurd hx.2 (by omega)) ?_
    intro r s' ⟨c, d, tc, hs', hf, hr⟩
    obtain ⟨i, -, hpid, -⟩ := hf.newPid
    refine ⟨fun hneg => ?_, fun _ => ⟨c, tc, hf.unborn, hf.record, hr.symm, hs'.separate hf.record (hf.live hs')⟩⟩
    rw [hr, hpid] at hneg
    omega

/-- The frames of a live process are not free. -/
theorem Sound.frames_left (h : Sound L s) (ht : s.tasks p = some t) (hl : t.live = true) :
    bitmapPgCnt + s.kernelPool.poolBitmap.free ≤ s.kernelPool.poolBitmap.size := by
  have hbase := h.frames.base
  have hsplit := h.frames.split
  have hmap : ∀ k, k < bitmapPgCnt → ∃ g, refs L s (.kernel (t.userprogVaddr.bits + k)) = some g ∧ s.Holds .kernel g ∧
      kHeapStart ≤ t.userprogVaddr.bits + k := fun k hk => by
    obtain ⟨hheap, g, hg⟩ := h.live_ref ht hl (part_map ht hl hk)
    have hhome := h.frames.ok.home _ _ hg
    rw [home_kernel hheap] at hhome
    exact ⟨g, hg, hhome, hheap⟩
  have hinj : Set.InjOn (fun k => (refs L s (.kernel (t.userprogVaddr.bits + k))).getD 0 - memBase)
      (Finset.range bitmapPgCnt : Set Nat) := by
    intro i hi j hj he
    obtain ⟨g, hg, ⟨hg₁, -⟩, hheap⟩ := hmap i (Finset.mem_range.1 hi)
    obtain ⟨g', hg', ⟨hg₂, -⟩, -⟩ := hmap j (Finset.mem_range.1 hj)
    simp only [Vm.pool_kernel, hbase] at hg₁ hg₂
    simp only [hg, hg', Option.getD_some] at he
    have heq : g = g' := by omega
    subst heq
    have hsame := h.frames.ok.kernel_only h.frames.kernel_base hheap hg hg'
    exact (Nat.add_left_cancel (Ref.kernel.inj hsame)).symm
  have hcard := Finset.card_image_of_injOn hinj
  rw [Finset.card_range] at hcard
  -- set bits and clear bits are among all bits
  have hset : ∀ i, i ∈ (Finset.range bitmapPgCnt).image
      (fun k => (refs L s (.kernel (t.userprogVaddr.bits + k))).getD 0 - memBase) →
      i < s.kernelPool.poolBitmap.size ∧ s.kernelPool.poolBitmap.bit i = true := by
    intro i hi
    obtain ⟨k, hk, rfl⟩ := Finset.mem_image.1 hi
    obtain ⟨g, hg, ⟨hg₁, hg₂⟩, -⟩ := hmap k (Finset.mem_range.1 hk)
    have hpool : s.Pooled g := .inl ⟨hg₁, hg₂⟩
    have hbit := (h.frames.bits g hpool).2 (h.frames.bal.counted h.frames.ok.fin hpool hg (le_refl 0))
    simp only [Vm.pool_kernel, hbase] at hg₁ hg₂
    simp only [hg, Option.getD_some]
    unfold Vm.frameBit at hbit
    rw [if_neg (by omega), hbase] at hbit
    exact ⟨by omega, hbit⟩
  rw [← hcard]
  exact Bitmap.card_add_free_le hset

/-! ## Machines -/

/-- The first process of a machine with enough memory forks cleanly. -/
theorem forkClean_first : ∃ s t, Reachable Call.Ready s ∧ s.tasks s.cur = some t ∧ ForkClean s := by
  obtain ⟨L, s, p, t, hs, h, hname, -, hh⟩ := first_process (m := 7680) (n := 480) (k := 26) (a := 0) (e := 25) (l := 1)
    (by decide) (by decide) (fun _ => zeros) initName (by decide) (by decide) (by decide) (by decide)
  have ht : s.tasks s.cur = some t := by rw [h.cur]; exact h.record
  have htables := h.sound.tables_stack h.record h.live h.page
  refine ⟨s, t, ⟨_, fun _ => zeros, _, hs⟩, ht, (forkClean_iff h.sound ht h.live h.few hh.small (by rw [hname]; decide)).2
    ⟨Has.forkFinds hh, ?_, hh.pids⟩⟩
  have := hh.kernel
  omega

/-- Where the kernel pool has 40 frames, the child of the first process has no
bitmap of its own. -/
theorem fork_without_room : ∃ s t, Reachable Call.Ready s ∧ s.tasks s.cur = some t ∧ t.live = true ∧
    t.name = initName ∧ ¬ ForkClean s := by
  obtain ⟨L, s, p, t, hs, h, hname, hpools, hh⟩ := first_process (m := 80) (n := 5) (k := 0) (a := 0) (e := 0) (l := 1)
    (by decide) (by decide) (fun _ => zeros) initName (by decide) (by decide) (by decide) (by decide)
  have ht : s.tasks s.cur = some t := by rw [h.cur]; exact h.record
  refine ⟨s, t, ⟨_, fun _ => zeros, _, hs⟩, ht, h.live, hname, fun hclean => ?_⟩
  have hroom := ((forkClean_iff h.sound ht h.live h.few hh.small (by rw [hname]; decide)).1 hclean).frames
  have hleft := h.sound.frames_left ht h.live
  have hsize : s.kernelPool.poolBitmap.size = 40 := hpools.1.kernelSize
  have hcnt : bitmapPgCnt = 23 := by decide
  omega

end

end Enix.Memory
