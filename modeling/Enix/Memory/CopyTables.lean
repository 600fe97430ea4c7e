import Enix.Memory.Budget
import Enix.Memory.Create

/-!
# `copy_page_tables`

`Forking`: parent and child while the loop runs; `Forked L c p s s' n`: the
pages of parent `p` below `n` are shared with child `c`, read-only in both.

* `Forked.share`: one page (`full_childProcess_pageTable`).
* `copyPageTables_spec`: all pages; the only reason to stop is that no frame is
  left for a page table.
* `copyPageTables_has`: a frame for each page table is enough.
-/
set_option autoImplicit false

namespace Enix.Memory
open Enix.Core Enix.Kernel Function

/-- Process `p` in use, and child `c` without pages, on directory `d`. -/
structure Forking (L : Spaces) (s : Vm) (c p d : Nat) (tc tp : TaskStruct) : Prop where
  ne : c ≠ p
  child : s.tasks c = some tc
  parent : s.tasks p = some tp
  childDir : kHeapStart ≤ tc.pgdir ∧ refs L s (.kernel tc.pgdir) = some d
  parentDir : kHeapStart ≤ tp.pgdir ∧ refs L s (.kernel tp.pgdir) = some s.cr3
  childSpace : L c = some d
  parentSpace : L p = some s.cr3
  few : alive L < 256
  empty : ∀ v, entries L s (.pte c v) = none
  user : UserSpace L s p tp.userprogVaddr

structure Forked (L : Spaces) (c p : Nat) (s s' : Vm) (n : Nat) : Prop where
  frames : Frames L quits s'
  parent : ∀ v, entries L s' (.pte p v) =
    if v < n then (refs L s (.pte p v)).map (· * 4096 + pgRo) else entries L s (.pte p v)
  child : ∀ v, entries L s' (.pte c v) =
    if v < n then (refs L s (.pte p v)).map (· * 4096 + pgRo) else none
  other : ∀ q v, q ≠ p → q ≠ c → entries L s' (.pte q v) = entries L s (.pte q v)
  keepTable : ∀ q i w, entries L s (.pde q i) = some w → entries L s' (.pde q i) = some w
  newTable : ∀ q i w, entries L s' (.pde q i) = some w →
    entries L s (.pde q i) = some w ∨ ∀ r, refs L s r ≠ some (w / 4096)
  phys : ∀ g r, refs L s r = some g → Plain L s g → s'.phys g = s.phys g
  kernelPte : s'.kernelPte = s.kernelPte
  kernelVaddr : s'.kernelVaddr = s.kernelVaddr
  rest : Rest s s'

section
variable {L : Spaces} {s s₁ s' : Vm} {tc tp t : TaskStruct} {u : VirtualAddr} {r : Ref}
  {c f g i j k m n p q v w d : Nat}

theorem Forked.start (h : Frames L quits s) (hf : Forking L s c p d tc tp) (hn : n ≤ userVaddrStart) :
    Forked L c p s s n := by
  have hno : ∀ v, v < n → entries L s (.pte p v) = none := by
    intro v hv
    by_contra hne
    have := hf.user.above v hne
    omega
  refine ⟨h, fun v => ?_, fun v => ?_, fun _ _ _ _ => rfl, fun _ _ _ hw => hw, fun _ _ _ hw => .inl hw,
    fun _ _ _ _ => rfl, rfl, rfl, Rest.refl s⟩
  · by_cases hv : v < n
    · rw [if_pos hv, refs_eq_none.2 (hno v hv), hno v hv]
      rfl
    · rw [if_neg hv]
  · rw [hf.empty]
    by_cases hv : v < n
    · rw [if_pos hv, refs_eq_none.2 (hno v hv)]
      rfl
    · rw [if_neg hv]

/-- Pages that the parent does not have. -/
theorem Forked.skip (h : Forked L c p s s' n) (hnm : n ≤ m)
    (hno : ∀ v, n ≤ v → v < m → refs L s (.pte p v) = none) : Forked L c p s s' m := by
  refine ⟨h.frames, fun v => ?_, fun v => ?_, h.other, h.keepTable, h.newTable, h.phys, h.kernelPte,
    h.kernelVaddr, h.rest⟩
  · rw [h.parent v]
    by_cases hv : v < n
    · rw [if_pos hv, if_pos (by omega)]
    · rw [if_neg hv]
      by_cases hm : v < m
      · rw [if_pos hm, hno v (by omega) hm, refs_eq_none.1 (hno v (by omega) hm)]
        rfl
      · rw [if_neg hm]
  · rw [h.child v]
    by_cases hv : v < n
    · rw [if_pos hv, if_pos (by omega)]
    · rw [if_neg hv]
      by_cases hm : v < m
      · rw [if_pos hm, hno v (by omega) hm]
        rfl
      · rw [if_neg hm]

/-- What was referred to is, from the same place. -/
theorem Forked.refs_of (h : Forked L c p s s' n) (hf : Forking L s c p d tc tp) (hr : refs L s r = some f) :
    refs L s' r = some f := by
  obtain ⟨w, hw, hwf⟩ := refs_eq_some.1 hr
  cases r with
  | kernel u =>
    rw [refs_kernel] at hr ⊢
    rwa [h.kernelPte]
  | pde q i => exact refs_eq_some.2 ⟨w, h.keepTable q i w hw, hwf⟩
  | pte q v =>
    by_cases hq : q = p
    · subst hq
      by_cases hv : v < n
      · exact refs_eq_some.2 ⟨f * 4096 + pgRo, by rw [h.parent v, if_pos hv, hr]; rfl, frame_pgRo f⟩
      · exact refs_eq_some.2 ⟨w, by rw [h.parent v, if_neg hv, hw], hwf⟩
    · by_cases hc : q = c
      · subst hc
        rw [hf.empty] at hw
        cases hw
      · exact refs_eq_some.2 ⟨w, by rw [h.other q v hq hc, hw], hwf⟩

theorem Forked.plain (h : Forked L c p s s' n) (hr : refs L s r = some f) (hp : Plain L s f) : Plain L s' f := by
  refine ⟨hp.1, fun q i hi => ?_⟩
  obtain ⟨w, hw, hwf⟩ := refs_eq_some.1 hi
  rcases h.newTable q i w hw with ho | hun
  · exact hp.2 q i (refs_eq_some.2 ⟨w, ho, hwf⟩)
  · exact hun r (hwf ▸ hr)

theorem task_run (ht : s.tasks p = some t) : task p s = .ok (t, s) := by
  unfold task
  rw [bind_ok (read_run _ s), ht]
  rfl

theorem task_ok (h : task p s = .ok (t, s')) : s.tasks p = some t ∧ s' = s := by
  unfold task at h
  rw [bind_ok (read_run _ s)] at h
  cases ht : s.tasks p with
  | none =>
    rw [ht] at h
    cases h
  | some t' =>
    rw [ht] at h
    cases h
    exact ⟨rfl, rfl⟩

/-- `page_dir_activate` of a process. -/
theorem pageDirActivate_run (ht : s.tasks p = some t) (hd : kHeapStart ≤ t.pgdir)
    (hr : refs L s (.kernel t.pgdir) = some d) : pageDirActivate p s = .ok ((), { s with cr3 := d }) := by
  have hne : t.pgdir ≠ 0 := by
    intro h0
    rw [h0] at hd
    exact absurd hd (by decide)
  unfold pageDirActivate
  rw [bind_ok (task_run ht), if_neg hne, bind_ok (addrV2p_kernel (heap_kernel hd) hr)]
  rfl

theorem entries_cr3 (L : Spaces) (s : Vm) (d : Nat) : entries L { s with cr3 := d } = entries L s :=
  entries_congr rfl rfl

/-- Which directory is in use is no matter of the books. -/
theorem Frames.cr3 {due : Nat → Int} (h : Frames L due s) (d : Nat) : Frames L due { s with cr3 := d } := by
  unfold Frames
  rw [entries_cr3]
  exact h.of_eq rfl rfl rfl

/-- Page `v` of the parent is shared. -/
theorem Forked.share (h : Forked L c p s s' v) (hf : Forking L s c p d tc tp)
    (hr : refs L s (.pte p v) = some f) :
    runs OutOfMemory (fullChildProcessPageTable c p v) (fun _ s₁ => Forked L c p s s₁ (v + 1)) s' := by
  have hcp := hf.ne
  have hL' : L p = some s'.cr3 := by rw [h.rest.cr3]; exact hf.parentSpace
  have hr' := h.refs_of hf hr
  have hv := page_lt hL' hr'
  obtain ⟨w₀, hw₀, -⟩ := refs_eq_some.1 hr'
  have hpool : s'.Pooled f := h.frames.ok.home _ _ hr'
  have hpos := h.frames.bal.counted h.frames.ok.fin hpool hr' (le_refl 0)
  unfold fullChildProcessPageTable
  rw [runs_bind_ok (addrV2p_user hL' hv hr'), runs_bind_ok (modifyPte_run hL' hv hw₀ f pgRo)]
  -- the parent may only read the page
  obtain ⟨hf₁, hset⟩ := h.frames.reflag hL' hv hr' (.inr rfl)
  generalize s'.setPte v (f * 4096 + pgRo) = s₁ at *
  have hker₁ : ∀ u g, refs L s (.kernel u) = some g → refs L s₁ (.kernel u) = some g := by
    intro u g hu
    rw [refs_kernel] at hu ⊢
    rwa [hset.kernelPte, h.kernelPte]
  rw [runs_bind_ok (pageDirActivate_run (by rw [hset.rest.tasks, h.rest.tasks]; exact hf.child) hf.childDir.1
    (hker₁ _ _ hf.childDir.2))]
  -- the child gets it
  have hent₂ : entries L ({ s₁ with cr3 := d } : Vm) = update (entries L s') (.pte p v) (some (f * 4096 + pgRo)) := by
    rw [entries_cr3, hset.entries]
  have hf₂ : Frames L quits ({ s₁ with cr3 := d } : Vm) := hf₁.cr3 d
  have hph₂ : ∀ g, Plain L s' g → ({ s₁ with cr3 := d } : Vm).phys g = s'.phys g := hset.phys
  have hrest₂ : Vm.SamePools s' ({ s₁ with cr3 := d } : Vm) := ⟨hset.rest.kernelStart, hset.rest.kernelSize,
    hset.rest.userStart, hset.rest.userSize⟩
  have hmem₂ : ({ s₁ with cr3 := d } : Vm).tasks = s.tasks := hset.rest.tasks.trans h.rest.tasks
  have hlist₂ : ({ s₁ with cr3 := d } : Vm).threadAllList = s.threadAllList :=
    hset.rest.threadAllList.trans h.rest.threadAllList
  have hpid₂ : ({ s₁ with cr3 := d } : Vm).pidBitmap = s.pidBitmap := hset.rest.pidBitmap.trans h.rest.pidBitmap
  have hcur₂ : ({ s₁ with cr3 := d } : Vm).cur = s.cur := hset.rest.cur.trans h.rest.cur
  have hkp₂ : ({ s₁ with cr3 := d } : Vm).kernelPte = s.kernelPte := hset.kernelPte.trans h.kernelPte
  have hkv₂ : ({ s₁ with cr3 := d } : Vm).kernelVaddr = s.kernelVaddr := hset.kernelVaddr.trans h.kernelVaddr
  have hL₂ : L c = some ({ s₁ with cr3 := d } : Vm).cr3 := hf.childSpace
  generalize ({ s₁ with cr3 := d } : Vm) = s₂ at *
  have hrefs₂ : refs L s₂ = refs L s' := by
    unfold refs
    rw [hent₂, refsOf_update, Option.map_some, frame_pgRo, ← hr']
    exact update_eq_self ..
  have hpool₂ : s₂.Pooled f := by rw [hrest₂.pooled]; exact hpool
  have hno : entries L s₂ (.pte c v) = none := by
    rw [hent₂, update_of_ne (by simp [hcp]), h.child v, if_neg (Nat.lt_irrefl v)]
  have hbit : s₂.frameBit f = true :=
    (hf₂.bits f hpool₂).2 (hf₂.bal.counted hf₂.ok.fin hpool₂ (by show refs L s₂ (.pte p v) = some f; rw [hrefs₂]; exact hr')
      (le_refl 0))
  refine runs_seq (pageTableAdd_user hf₂ (fun _ => le_refl 0) hL₂ hv hno hpool₂
    (fun r hrf => hf₂.ok.page_only hf₂.pooled_base (by show refs L s₂ (.pte p v) = some f; rw [hrefs₂]; exact hr') hrf)
    hbit (.inr rfl)) ?_
  rintro - s₃ ⟨hf₃, hadd⟩
  have hker₃ : refs L s₃ (.kernel tp.pgdir) = some s.cr3 := by
    have := hf.parentDir.2
    rw [refs_kernel] at this ⊢
    rwa [hadd.kernelPte, hkp₂]
  rw [runs_bind_ok (pageDirActivate_run (by rw [hadd.rest.tasks, hmem₂]; exact hf.parent) hf.parentDir.1 hker₃)]
  -- the count follows
  have hpool₃ : s₃.Pooled f := by rw [hadd.rest.pooled]; exact hpool₂
  have hrp₃ : refs L s₃ (.pte p v) = some f := hadd.keeps_ref (by rw [hrefs₂]; exact hr')
  have hrc₃ : refs L s₃ (.pte c v) = some f := refs_eq_some.2 ⟨_, hadd.page, frame_pgRo f⟩
  have hbal := hf₃.bal f hpool₃
  rw [owing_self] at hbal
  have hle := hf₃.sharers hrp₃
  have hfew := hf.few
  have hmany : refCount (refs L s₃) f ≠ 1 := fun h1 => hcp (by
    have := eq_of_refCount_one h1 hrp₃ hrc₃
    injection this with this
    exact this.symm)
  have hposr : 0 < refCount (refs L s₃) f := (refCount_pos hf₃.ok.fin).2 ⟨_, hrp₃⟩
  have hq : (quits f : Int) = 0 := rfl
  unfold refs at hle hmany hposr
  have hf₄ : Frames L (owing quits f (-1)) ({ s₃ with cr3 := s.cr3 } : Vm) := hf₃.cr3 _
  rw [runs_bind_ok (memCell_run hf₄ (s := { s₃ with cr3 := s.cr3 }) hpool₃ (by show 0 < s₃.mem f; omega)), runs_change]
  have hc : ({ s₃ with cr3 := s.cr3 } : Vm).mem f = s₃.mem f := rfl
  rw [hc, show (s₃.mem f + 1) % 256 = s₃.mem f + 1 by omega]
  have hf₅ := Books.recount (f := f) hf₄ hpool₃ (by rw [hc]; omega) (c := s₃.mem f + 1) (by omega)
  rw [hc, show ((s₃.mem f + 1 : Nat) : Int) - s₃.mem f = 1 by omega, owing_owing,
    show (-1 : Int) + 1 = 0 from rfl, owing_zero] at hf₅
  have hent₅ : entries L (({ s₃ with cr3 := s.cr3 } : Vm).setMem f (s₃.mem f + 1)) = entries L s₃ :=
    entries_congr rfl rfl
  have hent : ∀ q u, Ref.pte q u ≠ .pte p v → Ref.pte q u ≠ .pte c v →
      entries L s₃ (.pte q u) = entries L s' (.pte q u) := by
    intro q u h1 h2
    rw [hadd.other _ h2 (by simp), hent₂, update_of_ne h1]
  refine ⟨?_, fun u => ?_, fun u => ?_, fun q u hq1 hq2 => ?_, fun q i w hw => ?_, fun q i w hw => ?_,
    fun g r hg hpl => ?_, ?_, ?_, ?_⟩
  · unfold Frames
    rw [hent₅, ← entries_cr3 L s₃ s.cr3]
    exact hf₅
  · rw [hent₅]
    by_cases hu : u = v
    · rw [hu, if_pos (by omega), hr, hadd.other _ (by simp [Ne.symm hcp]) (by simp), hent₂, update_self]
      rfl
    · rw [hent p u (by simpa using hu) (by simp [Ne.symm hcp]), h.parent u]
      by_cases hlt : u < v
      · rw [if_pos hlt, if_pos (by omega)]
      · rw [if_neg hlt, if_neg (by omega)]
  · rw [hent₅]
    by_cases hu : u = v
    · rw [hu, if_pos (by omega), hr, hadd.page]
      rfl
    · rw [hent c u (by simp [hcp]) (by simpa using hu), h.child u]
      by_cases hlt : u < v
      · rw [if_pos hlt, if_pos (by omega)]
      · rw [if_neg hlt, if_neg (by omega)]
  · rw [hent₅, hent q u (by simp [hq1]) (by simp [hq2]), h.other q u hq1 hq2]
  · rw [hent₅]
    refine hadd.keeps ?_
    rw [hent₂, update_of_ne (by simp)]
    exact h.keepTable q i w hw
  · rw [hent₅] at hw
    by_cases hqi : Ref.pde q i = .pde c (v / 1024)
    · cases ho : entries L s₂ (.pde c (v / 1024)) with
      | some w' =>
        have hw' := hadd.table w' ho
        rw [hqi, hw'] at hw
        cases hw
        rw [hent₂, update_of_ne (by simp)] at ho
        cases hqi
        exact h.newTable _ _ w ho
      | none =>
        obtain ⟨g, hg, -, hun⟩ := hadd.newTable ho
        rw [hqi, hg] at hw
        cases hw
        rw [frame_pgRw]
        exact .inr fun r hr => hun r (by rw [hrefs₂]; exact h.refs_of hf hr)
    · rw [hadd.other _ (by simp) hqi, hent₂, update_of_ne (by simp)] at hw
      exact h.newTable q i w hw
  · have hg' := h.refs_of hf hg
    have hpl' := h.plain hg hpl
    rw [show (({ s₃ with cr3 := s.cr3 } : Vm).setMem f (s₃.mem f + 1)).phys = s₃.phys from rfl,
      hadd.phys g r (by rw [hrefs₂]; exact hg') ⟨hpl'.1, by rw [hrefs₂]; exact hpl'.2⟩, hph₂ g hpl', h.phys g r hg hpl]
  · exact hadd.kernelPte.trans hkp₂
  · exact hadd.kernelVaddr.trans hkv₂
  · exact ⟨(h.rest.toSamePools.trans hrest₂).trans ⟨hadd.rest.kernelStart, hadd.rest.kernelSize,
      hadd.rest.userStart, hadd.rest.userSize⟩, hadd.rest.tasks.trans hmem₂, hadd.rest.threadAllList.trans hlist₂,
      hadd.rest.pidBitmap.trans hpid₂, rfl, hadd.rest.cur.trans hcur₂⟩

/-! ## The loops -/

/-- A byte of a bitmap is read. -/
theorem loadByte_btmp (hb : BtmpOk L s u) (hi : i / 4096 ≤ u.btmpBytesLen / 4096) :
    loadByte (4096 * u.bits + i) s = .ok ((s.btmp u).bits i, s) := by
  obtain ⟨f, hf, -⟩ := hb.pages (i / 4096) (by omega)
  have hk := heap_kernel hb.heap
  unfold loadByte
  rw [bind_ok (read_run _ s), show (4096 * u.bits + i) / 4096 = u.bits + i / 4096 by omega,
    walk_kernel (L := L) (by omega), hf, get_some, bind_ok (pure_run f s), read_run,
    show (4096 * u.bits + i) % 4096 = i % 4096 by omega]
  unfold Vm.btmp
  simp only
  rw [(refs_kernel.1 hf).2]

/-- The loop reads the parent's bitmap as it was. -/
theorem Forked.loadByte (h : Forked L c p s s' n) (hf : Forking L s c p d tc tp) (hs : Frames L quits s)
    (hi : i < userBtmpLen) : loadByte (4096 * tp.userprogVaddr.bits + i) s' =
      .ok ((s.btmp tp.userprogVaddr).bits i, s') := by
  have hu := hf.user
  have hlen := hu.len
  have hb' : BtmpOk L s' tp.userprogVaddr := ⟨hu.heap, fun k hk => by
    obtain ⟨f, hr, hd⟩ := hu.pages k hk
    exact ⟨f, h.refs_of hf hr, hd⟩⟩
  rw [loadByte_btmp hb' (by omega), btmp_congr hu.toBtmpOk (fun k f hk hr => ⟨h.refs_of hf hr, ?_⟩) (by omega)]
  obtain ⟨f', hr', hpl⟩ := hu.toBtmpOk.frame hs hk
  rw [hr] at hr'
  cases hr'
  exact h.phys f _ hr hpl

theorem Forking.task_run (h : Forked L c p s s' n) (hf : Forking L s c p d tc tp) : task p s' = .ok (tp, s') :=
  Memory.task_run (by rw [h.rest.tasks]; exact hf.parent)

/-- One bit of the parent's bitmap. -/
theorem copyBit_spec (hs : Frames L quits s) (hf : Forking L s c p d tc tp)
    (hi : i < userBtmpLen) (hj : j < 8) (h : Forked L c p s s' (userVaddrStart + (i * 8 + j))) :
    runs OutOfMemory (copyBit c p i j) (fun _ s₁ => Forked L c p s s₁ (userVaddrStart + (i * 8 + j) + 1)) s' := by
  have hbit : ((s.btmp tp.userprogVaddr).bits i).toBitVec.getLsbD j = (s.btmp tp.userprogVaddr).bit (i * 8 + j) := by
    unfold Bitmap.bit
    rw [show (i * 8 + j) / 8 = i by omega, show (i * 8 + j) % 8 = j by omega]
  have hmap := hf.user.bit (i * 8 + j) (by omega)
  unfold copyBit
  rw [runs_bind_ok (hf.task_run h), runs_bind_ok (h.loadByte hf hs hi), hbit, hf.user.start]
  refine runs_ite (fun hb => ?_) fun hb => ?_
  · obtain ⟨w, hw⟩ := Option.ne_none_iff_exists'.1 (hmap.1 hb)
    exact h.share hf (refs_eq_some.2 ⟨w, hw, rfl⟩)
  · rw [runs_pure]
    refine h.skip (by omega) fun v h1 h2 => ?_
    rw [show v = userVaddrStart + (i * 8 + j) by omega, refs_eq_none]
    by_contra hne
    exact hb (hmap.2 hne)

theorem copyBits_spec (hs : Frames L quits s) (hf : Forking L s c p d tc tp) (hi : i < userBtmpLen) :
    ∀ n j s', j + n ≤ 8 → Forked L c p s s' (userVaddrStart + (i * 8 + j)) →
      runs OutOfMemory (copyBits c p i j n)
        (fun _ s₁ => Forked L c p s s₁ (userVaddrStart + (i * 8 + (j + n)))) s' := by
  intro n
  induction n with
  | zero =>
    intro j s' _ h
    exact h
  | succ n ih =>
    intro j s' hj h
    unfold copyBits
    refine runs_seq (copyBit_spec hs hf hi (by omega) h) fun _ s₁ h₁ => ?_
    have hr := ih (j + 1) s₁ (by omega) h₁
    rwa [show j + 1 + n = j + (n + 1) by omega] at hr

theorem copyBytes_spec (hs : Frames L quits s) (hf : Forking L s c p d tc tp) :
    ∀ n i s', i + n ≤ userBtmpLen → Forked L c p s s' (userVaddrStart + i * 8) →
      runs OutOfMemory (copyBytes c p i n)
        (fun _ s₁ => Forked L c p s s₁ (userVaddrStart + (i + n) * 8)) s' := by
  intro n
  induction n with
  | zero =>
    intro i s' _ h
    exact h
  | succ n ih =>
    intro i s' hi h
    unfold copyBytes
    rw [runs_bind_ok (hf.task_run h), runs_bind_ok (h.loadByte hf hs (by omega))]
    refine runs_seq (P := fun _ s₁ => Forked L c p s s₁ (userVaddrStart + (i + 1) * 8)) ?_ fun _ s₁ h₁ => ?_
    · refine runs_when (fun _ => ?_) fun hz => ?_
      · have hr := copyBits_spec hs hf (by omega : i < userBtmpLen) 8 0 s' (by omega) h
        rwa [show i * 8 + (0 + 8) = (i + 1) * 8 by omega] at hr
      · -- a byte that is zero stands for eight pages that are not there
        have hzero : (s.btmp tp.userprogVaddr).bits i = 0 := by simpa using hz
        refine h.skip (by omega) fun v h1 h2 => ?_
        have hmap := hf.user.bit (v - userVaddrStart) (by omega)
        have hclear : (s.btmp tp.userprogVaddr).bit (v - userVaddrStart) = false := by
          unfold Bitmap.bit
          rw [show (v - userVaddrStart) / 8 = i by omega, hzero]
          simp
        rw [show userVaddrStart + (v - userVaddrStart) = v by omega, hclear] at hmap
        rw [refs_eq_none]
        by_contra hne
        cases hmap.2 hne
    · have hr := ih (i + 1) s₁ (by omega) h₁
      rwa [show i + 1 + n = i + (n + 1) by omega] at hr

/-- `copy_page_tables` shares every page of the parent. -/
theorem copyPageTables_spec (hs : Frames L quits s) (hf : Forking L s c p d tc tp) :
    runs OutOfMemory (copyPageTables c p) (fun _ s₁ => Forked L c p s s₁ kernelBase) s := by
  unfold copyPageTables
  rw [runs_bind_ok (Memory.task_run hf.parent), hf.user.len]
  have h := copyBytes_spec hs hf userBtmpLen 0 s (by omega) (Forked.start hs hf (by omega))
  have he : userVaddrStart + (0 + userBtmpLen) * 8 = kernelBase := by decide
  rwa [he] at h

/-! ## What it needs -/

/-- A page below `n` is in use of those that entry `e` of the directory is over. -/
def overUsed (b : Bitmap) (n e : Nat) : Bool := (List.range 1024).any fun i =>
  decide (userVaddrStart ≤ 1024 * e + i ∧ 1024 * e + i < n) && b.bit (1024 * e + i - userVaddrStart)

/-- The entries that are over pages in use, all from `n` on. -/
def tablesFrom (b : Bitmap) (n : Nat) : Finset Nat :=
  (Finset.range 768).filter fun e => overUsed b kernelBase e = true ∧ overUsed b n e = false

/-- How many page tables the pages of a process need. -/
def tableCnt (b : Bitmap) : Nat := (tablesFrom b 0).card

theorem overUsed_iff {b : Bitmap} {e : Nat} : overUsed b n e = true ↔
    ∃ v, v / 1024 = e ∧ userVaddrStart ≤ v ∧ v < n ∧ b.bit (v - userVaddrStart) = true := by
  unfold overUsed
  simp only [List.any_eq_true, List.mem_range, Bool.and_eq_true, decide_eq_true_eq]
  constructor
  · intro ⟨i, hi, ⟨h1, h2⟩, hb⟩
    exact ⟨1024 * e + i, by omega, h1, h2, hb⟩
  · intro ⟨v, he, h1, h2, hb⟩
    have hv : 1024 * e + v % 1024 = v := by omega
    exact ⟨v % 1024, by omega, by omega, by rwa [hv]⟩

theorem tablesFrom_mono {b : Bitmap} (h : n ≤ m) : tablesFrom b m ⊆ tablesFrom b n := by
  intro e he
  simp only [tablesFrom, Finset.mem_filter, Finset.mem_range] at he ⊢
  refine ⟨he.1, he.2.1, Bool.eq_false_iff.2 fun hn => ?_⟩
  obtain ⟨v, hv, h1, h2, hb⟩ := overUsed_iff.1 hn
  have hm : overUsed b m e = true := overUsed_iff.2 ⟨v, hv, h1, lt_of_lt_of_le h2 h, hb⟩
  exact absurd he.2.2 (by rw [hm]; simp)

/-- The first page in use under an entry. -/
theorem tablesFrom_first {b : Bitmap} (hv : userVaddrStart ≤ v) (hk : v < kernelBase)
    (hb : b.bit (v - userVaddrStart) = true) (hfirst : overUsed b v (v / 1024) = false) :
    (tablesFrom b (v + 1)).card + 1 ≤ (tablesFrom b v).card := by
  have hbase : kernelBase = 768 * 1024 := rfl
  have hmem : v / 1024 ∈ tablesFrom b v := by
    simp only [tablesFrom, Finset.mem_filter, Finset.mem_range]
    exact ⟨by omega, overUsed_iff.2 ⟨v, rfl, hv, hk, hb⟩, hfirst⟩
  have hnot : v / 1024 ∉ tablesFrom b (v + 1) := by
    simp only [tablesFrom, Finset.mem_filter, not_and]
    intro _ _
    rw [overUsed_iff.2 ⟨v, rfl, hv, Nat.lt_succ_self v, hb⟩]
    simp
  exact Finset.card_lt_card (Finset.ssubset_iff_subset_ne.2 ⟨tablesFrom_mono (Nat.le_succ v), fun he =>
    hnot (by rw [he]; exact hmem)⟩)

theorem tablesFrom_congr {b b' : Bitmap} (h : ∀ j, j < 8 * userBtmpLen → b'.bit j = b.bit j) :
    tablesFrom b' n = tablesFrom b n := by
  have hend : userVaddrStart + 8 * userBtmpLen = kernelBase := by decide
  have hover : ∀ m e, e < 768 → overUsed b' m e = overUsed b m e := by
    intro m e he
    have hbase : kernelBase = 768 * 1024 := rfl
    rw [Bool.eq_iff_iff, overUsed_iff, overUsed_iff]
    constructor
    · intro ⟨v, hv, h1, h2, hb⟩
      exact ⟨v, hv, h1, h2, by rw [← h _ (by omega)]; exact hb⟩
    · intro ⟨v, hv, h1, h2, hb⟩
      exact ⟨v, hv, h1, h2, by rw [h _ (by omega)]; exact hb⟩
  unfold tablesFrom
  refine Finset.filter_congr fun e he => ?_
  rw [hover _ e (Finset.mem_range.1 he), hover _ e (Finset.mem_range.1 he)]

/-- A table that is there costs nothing. -/
theorem pageTableAdd_table {T : Nat → Option TaskStruct} {a b e l flag : Nat} (hp : present (s.pde v) = true)
    (hh : Has T a b e l s) : runs Enough (pageTableAdd v f flag) (fun _ s' => Has T a b e l s') s := by
  unfold pageTableAdd
  rw [runs_read_bind, if_pos hp, runs_read_bind]
  exact runs_guard_bind (fun _ => enough_assertion (by decide)) fun _ => hh.of_eq (setPte_stock s v _)

/-- `full_childProcess_pageTable` needs a frame for a page table, for the first
page under an entry of the directory. -/
theorem Forked.share_has {T : Nat → Option TaskStruct} {a b e l : Nat} (h : Forked L c p s s' v)
    (hf : Forking L s c p d tc tp) (hr : refs L s (.pte p v) = some f) (hT : T = s.tasks)
    (hh : Has T ((tablesFrom (s.btmp tp.userprogVaddr) v).card + a) b e l s') :
    runs Enough (fullChildProcessPageTable c p v)
      (fun _ s₁ => Has T ((tablesFrom (s.btmp tp.userprogVaddr) (v + 1)).card + a) b e l s₁) s' := by
  subst hT
  have hL' : L p = some s'.cr3 := by rw [h.rest.cr3]; exact hf.parentSpace
  have hr' := h.refs_of hf hr
  have hv := page_lt hL' hr'
  obtain ⟨w₀, hw₀, -⟩ := refs_eq_some.1 hr'
  have hpool : s'.Pooled f := h.frames.ok.home _ _ hr'
  have hpos := h.frames.bal.counted h.frames.ok.fin hpool hr' (le_refl 0)
  have hcell : memBase ≤ f ∧ f < memBase + physicalPage := ⟨(h.frames.range hpool).1, h.frames.cell f hpool hpos⟩
  obtain ⟨wp, hwp, -⟩ := refs_eq_some.1 hr
  have hstart : userVaddrStart ≤ v := hf.user.above v (by rw [hwp]; exact Option.some_ne_none wp)
  have hlast : userVaddrStart + 8 * userBtmpLen = kernelBase := by decide
  have hbit : (s.btmp tp.userprogVaddr).bit (v - userVaddrStart) = true := by
    rw [hf.user.bit _ (by omega), show userVaddrStart + (v - userVaddrStart) = v by omega, hwp]
    exact Option.some_ne_none wp
  unfold fullChildProcessPageTable
  rw [runs_bind_ok (addrV2p_user hL' hv hr'), runs_bind_ok (modifyPte_run hL' hv hw₀ f pgRo)]
  obtain ⟨-, hset⟩ := h.frames.reflag hL' hv hr' (.inr rfl)
  have hh₁ : Has s.tasks ((tablesFrom (s.btmp tp.userprogVaddr) v).card + a) b e l (s'.setPte v (f * 4096 + pgRo)) :=
    hh.of_eq (setPte_stock s' v _)
  generalize s'.setPte v (f * 4096 + pgRo) = s₁ at *
  have hker₁ : refs L s₁ (.kernel tc.pgdir) = some d := by
    have := hf.childDir.2
    rw [refs_kernel] at this ⊢
    rwa [hset.kernelPte, h.kernelPte]
  rw [runs_bind_ok (pageDirActivate_run (by rw [hset.rest.tasks, h.rest.tasks]; exact hf.child) hf.childDir.1 hker₁)]
  have hh₂ : Has s.tasks ((tablesFrom (s.btmp tp.userprogVaddr) v).card + a) b e l ({ s₁ with cr3 := d } : Vm) :=
    hh₁.of_eq rfl
  -- what is left to do needs no frame
  have hrest : ∀ s₃ k, Has s.tasks k b e l s₃ → runs Enough (do
      pageDirActivate p
      let m ← memCell f
      Cmd.change (·.setMem f ((m + 1) % 256))) (fun _ s₁ => Has s.tasks k b e l s₁) s₃ := fun s₃ k h₃ =>
    (Costs.before (pageDirActivate_costs hf.parent) fun _ => Costs.before (memCell_costs hcell) fun m =>
      Costs.change (h := (·.setMem f ((m + 1) % 256))) (fun _ => rfl)).free h₃
  by_cases hover : overUsed (s.btmp tp.userprogVaddr) v (v / 1024) = true
  · -- another page under the entry has been shared before
    obtain ⟨u, hu, hus, huv, hub⟩ := overUsed_iff.1 hover
    have hpu : entries L s (.pte p u) ≠ none := by
      have := (hf.user.bit (u - userVaddrStart) (by omega)).1 hub
      rwa [show userVaddrStart + (u - userVaddrStart) = u by omega] at this
    obtain ⟨wu, hwu⟩ := Option.ne_none_iff_exists'.1 hpu
    have hcu : entries L ({ s₁ with cr3 := d } : Vm) (.pte c u) = some (wu / 4096 * 4096 + pgRo) := by
      rw [entries_cr3, hset.entries, update_of_ne (by simp [hf.ne]), h.child u, if_pos huv, refs_eq_some.2 ⟨wu, hwu, rfl⟩]
      rfl
    have hpde := ((entries_pte hf.childSpace).1 hcu).2.1
    have hpres : present (({ s₁ with cr3 := d } : Vm).pde v) = true := by
      unfold Vm.pde
      rw [if_pos hv, ← hu]
      exact hpde
    refine runs_seq (pageTableAdd_table hpres hh₂) fun _ s₃ h₃ => ?_
    exact runs_post (hrest s₃ _ h₃) fun _ s₄ h₄ => h₄.mono
      (Nat.add_le_add_right (Finset.card_le_card (tablesFrom_mono (Nat.le_succ v))) a) (le_refl b) (le_refl e) (le_refl l)
  · have hfirst := tablesFrom_first hstart hv hbit (Bool.eq_false_iff.2 hover)
    refine runs_seq ((pageTableAdd_costs v f pgRo).run hh₂ (by omega) (Nat.zero_le _) (Nat.zero_le _) (Nat.zero_le _))
      fun _ s₃ h₃ => ?_
    refine runs_post (hrest s₃ _ h₃) fun _ s₄ h₄ => h₄.mono (by omega) (by omega) (by omega) (by omega)

theorem copyBit_has {T : Nat → Option TaskStruct} {a b e l : Nat} (hs : Frames L quits s)
    (hf : Forking L s c p d tc tp) (hi : i < userBtmpLen) (hj : j < 8)
    (h : Forked L c p s s' (userVaddrStart + (i * 8 + j))) (hT : T = s.tasks)
    (hh : Has T ((tablesFrom (s.btmp tp.userprogVaddr) (userVaddrStart + (i * 8 + j))).card + a) b e l s') :
    runs Enough (copyBit c p i j) (fun _ s₁ =>
      Has T ((tablesFrom (s.btmp tp.userprogVaddr) (userVaddrStart + (i * 8 + j) + 1)).card + a) b e l s₁) s' := by
  have hbit : ((s.btmp tp.userprogVaddr).bits i).toBitVec.getLsbD j = (s.btmp tp.userprogVaddr).bit (i * 8 + j) := by
    unfold Bitmap.bit
    rw [show (i * 8 + j) / 8 = i by omega, show (i * 8 + j) % 8 = j by omega]
  unfold copyBit
  rw [runs_bind_ok (hf.task_run h), runs_bind_ok (h.loadByte hf hs hi), hbit, hf.user.start]
  refine runs_ite (fun hb => ?_) fun _ => hh.mono ?_ (le_refl _) (le_refl _) (le_refl _)
  · obtain ⟨w, hw⟩ := Option.ne_none_iff_exists'.1 ((hf.user.bit (i * 8 + j) (by omega)).1 hb)
    exact h.share_has hf (refs_eq_some.2 ⟨w, hw, rfl⟩) hT hh
  · exact Nat.add_le_add_right (Finset.card_le_card (tablesFrom_mono (Nat.le_succ _))) a

theorem copyBits_has {T : Nat → Option TaskStruct} {a b e l : Nat} (hs : Frames L quits s)
    (hf : Forking L s c p d tc tp) (hi : i < userBtmpLen) (hT : T = s.tasks) :
    ∀ n j s', j + n ≤ 8 → Forked L c p s s' (userVaddrStart + (i * 8 + j)) →
      Has T ((tablesFrom (s.btmp tp.userprogVaddr) (userVaddrStart + (i * 8 + j))).card + a) b e l s' →
      runs Enough (copyBits c p i j n) (fun _ s₁ =>
        Has T ((tablesFrom (s.btmp tp.userprogVaddr) (userVaddrStart + (i * 8 + (j + n)))).card + a) b e l s₁) s' := by
  intro n
  induction n with
  | zero =>
    intro j s' _ _ hh
    exact hh
  | succ n ih =>
    intro j s' hj h hh
    unfold copyBits
    refine runs_seq (runs_mono (runs_both (copyBit_spec hs hf hi (by omega) h) (copyBit_has hs hf hi (by omega) h hT
      hh)) (fun _ hx => hx.2) fun _ _ hq => hq) ?_
    rintro _ s₁ ⟨h₁, hh₁⟩
    have hr := ih (j + 1) s₁ (by omega) h₁ hh₁
    rwa [show j + 1 + n = j + (n + 1) by omega] at hr

theorem copyBytes_has {T : Nat → Option TaskStruct} {a b e l : Nat} (hs : Frames L quits s)
    (hf : Forking L s c p d tc tp) (hT : T = s.tasks) : ∀ n i s', i + n ≤ userBtmpLen →
      Forked L c p s s' (userVaddrStart + i * 8) →
      Has T ((tablesFrom (s.btmp tp.userprogVaddr) (userVaddrStart + i * 8)).card + a) b e l s' →
      runs Enough (copyBytes c p i n) (fun _ s₁ => Has T a b e l s₁) s' := by
  intro n
  induction n with
  | zero =>
    intro i s' _ _ hh
    exact hh.mono (by omega) (le_refl _) (le_refl _) (le_refl _)
  | succ n ih =>
    intro i s' hi h hh
    have hone := copyBytes_spec hs hf 1 i s' (by omega) h
    unfold copyBytes at hone ⊢
    rw [runs_bind_ok (hf.task_run h), runs_bind_ok (h.loadByte hf hs (by omega))] at hone ⊢
    rw [runs_bind] at hone
    have hstep : runs Enough (Cmd.when ((s.btmp tp.userprogVaddr).bits i ≠ 0) (copyBits c p i 0 8)) (fun _ s₁ =>
        Has T ((tablesFrom (s.btmp tp.userprogVaddr) (userVaddrStart + (i + 1) * 8)).card + a) b e l s₁) s' := by
      refine runs_when (fun _ => ?_) fun _ => hh.mono ?_ (le_refl _) (le_refl _) (le_refl _)
      · have hr := copyBits_has hs hf (by omega : i < userBtmpLen) hT 8 0 s' (by omega) h hh
        rwa [show i * 8 + (0 + 8) = (i + 1) * 8 by omega] at hr
      · exact Nat.add_le_add_right (Finset.card_le_card (tablesFrom_mono (by omega))) a
    refine runs_seq (runs_mono (runs_both hone hstep) (fun _ hx => hx.2) fun _ _ hq => hq) ?_
    rintro _ s₁ ⟨h₁, hh₁⟩
    exact ih (i + 1) s₁ (by omega) h₁ hh₁

theorem copyPageTables_has {T : Nat → Option TaskStruct} {a b e l : Nat} (hs : Frames L quits s)
    (hf : Forking L s c p d tc tp) (hT : T = s.tasks)
    (hh : Has T (tableCnt (s.btmp tp.userprogVaddr) + a) b e l s) :
    runs Enough (copyPageTables c p) (fun _ s₁ => Has T a b e l s₁) s := by
  unfold copyPageTables
  rw [runs_bind_ok (Memory.task_run hf.parent), hf.user.len]
  refine copyBytes_has hs hf hT userBtmpLen 0 s (by omega) (Forked.start hs hf (by omega)) (hh.mono ?_ (le_refl _)
    (le_refl _) (le_refl _))
  exact Nat.add_le_add_right (Finset.card_le_card (tablesFrom_mono (Nat.zero_le _))) a

end

end Enix.Memory
