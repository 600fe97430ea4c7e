import Enix.Memory.Calls

/-!
# Calls that return

With enough memory left (`Has`) the calls return, and say how much is left:
`Sound.start_returns`, `Sound.mallocUser_returns`, `Sound.fork_returns`,
`Sound.store_returns`, `Sound.exit_returns`. `first_process`: after boot the
first process can be started.
-/
set_option autoImplicit false

namespace Enix.Memory
open Enix.Core Enix.Kernel Function

section
variable {α : Type} {T : Nat → Option TaskStruct} {L : Spaces} {s s' : Vm} {t : TaskStruct} {u : VirtualAddr}
  {m : M α} {E : Stop → Prop} {P Q : α → Vm → Prop} {a b c d e f i k n p q v w x l : Nat}

/-- Only process `c` is there, and of its pages only that of the stack. -/
structure Lone (L : Spaces) (s : Vm) (c : Nat) (t : TaskStruct) : Prop where
  sound : Sound L s
  cur : s.cur = c
  record : s.tasks c = some t
  live : t.live = true
  alone : ∀ q, q ≠ c → s.tasks q = none
  threadAllList : s.threadAllList = [c]
  pid : ∃ i : Nat, t.pid = i + 1 ∧ s.pidBitmap.bit i = true
  stack : ∃ w, entries L s (.pte c userStack3) = some w
  page : ∀ v, v ≠ userStack3 → entries L s (.pte c v) = none

/-- Process `p` runs, and has a child `c`; they share the page of the stack. -/
structure Pair (L : Spaces) (s : Vm) (p c : Nat) (t tc : TaskStruct) : Prop where
  sound : Sound L s
  cur : s.cur = p
  parent : s.tasks p = some t
  child : s.tasks c = some tc
  ne : c ≠ p
  parentLive : t.live = true
  childLive : tc.live = true
  alone : ∀ q, q ≠ p → q ≠ c → s.tasks q = none
  threadAllList : s.threadAllList = [p, c]
  name : tc.name = t.name ++ forkSuffix
  parentPid : tc.parentPid = t.pid
  pids : ∃ i j : Nat, t.pid = i + 1 ∧ tc.pid = j + 1 ∧ i ≠ j
  stack : ∃ f, entries L s (.pte p userStack3) = some (f * 4096 + pgRo) ∧
    entries L s (.pte c userStack3) = some (f * 4096 + pgRo)
  page : ∀ q v, v ≠ userStack3 → entries L s (.pte q v) = none

/-- What is specified, and has memory enough. -/
theorem runs_returns (h : runs E m P s) (hb : runs Enough m Q s) (hE : ∀ x, E x → OutOfMemory x) :
    runs (fun _ => False) m (fun a s' => P a s' ∧ Q a s') s :=
  runs_mono (runs_both h hb) (fun x hx => hx.2 (hE x hx.1)) fun _ _ hq => hq

/-! ## Pages of a process -/

theorem storeByte_costs (a : Nat) (x : UInt8) : Costs T 0 0 0 0 (storeByte a x) :=
  (Costs.read _).before fun _ => (Costs.get _ enough_fault).before fun _ => .change fun _ => rfl

theorem setBtmp_costs (u : VirtualAddr) (i : Nat) (v : Bool) : Costs T 0 0 0 0 (setBtmp u i v) :=
  ((Costs.read _).before fun _ => (Costs.guard enough_fault).before fun _ => .read _).before fun _ =>
    storeByte_costs _ _

/-- `get_a_page` takes a frame, and one for a page table. -/
theorem getAPage_has (ht : s.tasks s.cur = some t) (hd : t.pgdir ≠ 0)
    (hi : bitIdx v t.userprogVaddr.vaddrStart < 8 * t.userprogVaddr.btmpBytesLen)
    (hh : Has s.tasks (1 + k) (1 + a) e l s) :
    runs Enough (getAPage .user v) (fun _ s' => Has s.tasks k a e l s') s := by
  unfold getAPage reservePage
  rw [runs_bind, runs_bind_ok (runningThread_run rfl ht), if_pos ⟨hd, rfl⟩]
  generalize bitIdx v t.userprogVaddr.vaddrStart = i at *
  refine runs_guard_bind (fun _ => enough_assertion (by decide)) fun _ => ?_
  refine runs_guard_bind (fun hn => absurd hi hn) fun _ => ?_
  refine runs_mono ((setBtmp_costs _ _ _).free hh) (fun _ hx => hx) fun _ s₁ h₁ => ?_
  refine runs_seq (palloc_run h₁ (by simp only; omega)) ?_
  rintro r s₂ ⟨hr, h₂⟩
  cases r with
  | none => exact absurd rfl hr
  | some f =>
    simp only at h₂ ⊢
    refine runs_seq ((pageTableAdd_costs v f pgRw).run h₂ (by omega) (by omega) (by omega) (by omega)) fun _ s₃ h₃ => ?_
    rw [runs_pure]
    exact h₃.mono (by omega) (by omega) (by omega) (by omega)

/-- `start_process`, when the page of the stack is not there. -/
theorem Sound.start_returns (h : Sound L s) (ht : s.tasks s.cur = some t) (hl : t.live = true)
    (hno : entries L s (.pte s.cur userStack3) = none) (hh : Has s.tasks (1 + k) (1 + a) e l s) :
    runs (fun _ => False) startProcess
      (fun _ s' => Sound L s' ∧ GotUser L s s' s.cur userStack3 1 ∧ Has s'.tasks k a e l s') s := by
  have hu := h.user _ t ht hl
  have hbit : bitIdx userStack3 userVaddrStart < 8 * userBtmpLen := by decide
  have hpos : bitIdx userStack3 userVaddrStart ≠ 0 := by decide
  unfold startProcess
  refine runs_drop (runs_mono (runs_both (h.getAPageUser ht hl (by decide)) (getAPage_has ht (TaskStruct.live_pgdir hl)
    (by rw [hu.start, hu.len]; exact hbit) hh)) ?_ fun _ s' hq => ?_)
  · rintro x ⟨hx | ⟨-, hz⟩ | ⟨-, hp⟩, hb⟩
    · exact hb hx
    · exact hpos hz
    · exact hp hno
  · exact ⟨hq.1.2.1, hq.1.2.2, by rw [hq.1.2.2.rest.tasks]; exact hq.2⟩

/-- `malloc_page(PF_KERNEL, n)`. -/
theorem Sound.mallocKernel_returns (h : Sound L s) (hn : 0 < n) (hn' : n < 3840)
    (hh : Has s.tasks (n + k) a (n + e) l s) :
    runs (fun _ => False) (mallocPage .kernel n) (fun r s' => ∃ v, r = some v ∧ Sound L s' ∧ NewPages L s s' v n ∧
      Has s'.tasks k a e l s') s := by
  refine runs_mono (runs_returns (h.mallocKernel hn hn') (mallocPage_kernel_run hh hh.finds) fun _ hx => hx) (fun _ hx => hx) ?_
  rintro r s' ⟨⟨rfl, -⟩ | ⟨v, rfl, hs', hg, -⟩, hr, -, hq⟩
  · exact absurd rfl hr
  · exact ⟨v, rfl, hs', hg, by rw [hg.rest.tasks]; exact hq⟩

/-! ## Processes -/

/-- A row of 25 clear bits has all that a fork looks for. -/
theorem Has.forkFinds (hs : Has T k a (25 + e) l s) : s.forkFinds e := by
  have hcnt : bitmapPgCnt = 23 := by decide
  obtain ⟨m, hm, hlow⟩ := hs.pages
  obtain ⟨i, hi, hil⟩ : ∃ i : Nat, s.kernelVaddr.scan 1 = some (i : Int) ∧ i ≤ m :=
    Bitmap.scan_low (fun x h1 h2 => hlow x h1 (by omega)) (by decide) (by omega)
  have hlow₁ : ∀ x, m + 1 ≤ x → x < m + (25 + e) → (setRange s.kernelVaddr true i 1).bit x = false := by
    intro x h1 h2
    rw [bit_setRange, if_neg (by omega)]
    exact hlow x (by omega) h2
  obtain ⟨j, hj, hjl⟩ : ∃ j : Nat, (setRange s.kernelVaddr true i 1).scan bitmapPgCnt = some (j : Int) ∧ j ≤ m + 1 :=
    Bitmap.scan_low (fun x h1 h2 => hlow₁ x h1 (by omega)) (by omega) (by rw [setRange_size]; omega)
  have hlow₂ : ∀ x, m + 24 ≤ x → x < m + (25 + e) →
      (setRange (setRange s.kernelVaddr true i 1) true j bitmapPgCnt).bit x = false := by
    intro x h1 h2
    rw [bit_setRange, if_neg (by omega)]
    exact hlow₁ x (by omega) h2
  obtain ⟨v, hv, hvl⟩ : ∃ v : Nat, (setRange (setRange s.kernelVaddr true i 1) true j bitmapPgCnt).scan 1 =
      some (v : Int) ∧ v ≤ m + 24 :=
    Bitmap.scan_low (fun x h1 h2 => hlow₂ x h1 (by omega)) (by decide) (by rw [setRange_size, setRange_size]; omega)
  refine ⟨i, j, v, hi, hj, hv, m + 25, by omega, fun x h1 h2 => ?_⟩
  rw [bit_setRange, if_neg (by omega)]
  exact hlow₂ x (by omega) (by omega)

/-- `sys_fork` takes 25 frames, and one for each page table. -/
theorem Sound.fork_returns (h : Sound L s) (ht : s.tasks s.cur = some t) (hl : t.live = true)
    (hfew : alive L + 1 < 256) (hroom : s.bitmapRoom = true) (hname : t.name.length < 16)
    (hh : Has s.tasks (25 + tableCnt (s.btmp t.userprogVaddr) + k) a (25 + e) (1 + l) s) :
    runs (fun _ => False) Memory.sysFork (fun r s' => ∃ c d tc, Sound (update L c (some d)) s' ∧
      HasForked L s s' s.cur c d t tc ∧ r = tc.pid ∧ Has s'.tasks k a e l s') s := by
  refine runs_mono (h.sysFork_within (B := True) ht hl hfew hroom fun _ => ⟨hh, hh.forkFinds⟩) ?_ ?_
  · rintro x ⟨hx | ⟨-, hx⟩, hb⟩
    · exact hb trivial hx
    · omega
  · rintro r s' ⟨c, d, tc, hs', hf, hr, -, -, hq⟩
    exact ⟨c, d, tc, hs', hf, hr, hq trivial⟩

/-- A store to a page that is there. -/
theorem Sound.store_returns (h : Sound L s) (ht : s.tasks s.cur = some t) (hl : t.live = true)
    (ha : a / 4096 < kernelBase) (hr : refs L s (.pte s.cur (a / 4096)) ≠ none) (x : UInt8)
    (hh : Has s.tasks 2 0 1 0 s) :
    runs (fun _ => False) (Memory.userStore a x) (fun _ s' => Sound L s' ∧ Wrote L s s' s.cur a x) s := by
  refine runs_mono (h.userStore (B := True) ht hl ha x fun _ => hh) ?_ fun _ _ hq => ⟨hq.1, hq.2.1⟩
  rintro x (⟨-, hx⟩ | ⟨-, hx⟩)
  · exact hx trivial
  · exact hr hx

/-- `sys_exit` of a process that has a parent. -/
theorem Sound.exit_returns (h : Sound L s) (ht : s.tasks s.cur = some t) (hl : t.live = true)
    (hp : t.parentPid ≠ -1) (hself : t.parentPid ≠ t.pid) (hpar : s.pid2thread t.parentPid ≠ none) :
    runs (fun _ => False) Memory.sysExit
      (fun _ s' => Sound (update L s.cur none) s' ∧ HasExited L s s' s.cur t) s := by
  refine runs_mono (h.sysExit ht hl) ?_ fun _ _ hq => hq
  rintro x (⟨-, hx⟩ | ⟨-, hx | hx⟩)
  · exact hp hx
  · exact hself hx
  · exact hpar hx

/-- A row of 24 clear bits is room for a child. -/
theorem Has.bitmapRoom (hh : Has T k a e l s) (he : 24 ≤ e) : s.bitmapRoom = true := by
  obtain ⟨m, hm, hlow⟩ := hh.pages
  have hcnt : bitmapPgCnt = 23 := by decide
  obtain ⟨i, hi, hle, -, -⟩ := Bitmap.scan_one (by omega) (hlow m (Nat.le_refl m) (by omega))
  obtain ⟨j, hj, -⟩ := @Bitmap.scan_low (s.kernelVaddr.set i true) (m + 1) bitmapPgCnt
    (fun x h1 h2 => by rw [Bitmap.bit_set_ne _ _ (by omega)]; exact hlow x (by omega) (by omega)) (by omega)
    (by rw [Bitmap.set_size]; omega)
  unfold Vm.bitmapRoom
  rw [hi]
  show ((s.kernelVaddr.set i true).scan bitmapPgCnt != some (-1)) = true
  rw [hj]
  refine bne_iff_ne.2 fun hc => ?_
  injection hc with hc
  omega

/-! ## The first process -/

theorem clearBitmap_free (len : Nat) : (clearBitmap len).free = 8 * len := by
  unfold Bitmap.free
  rw [List.countP_eq_length.2 fun i _ => by rw [clearBitmap_bit]; rfl, List.length_range]
  rfl

/-- What a machine with `m` pages behind the kernel has at boot. -/
theorem boot_has {m n : Nat} (hm : m ≤ physicalPage) (hn : 16 * n ≤ m) (phys : Nat → Bytes) :
    Has (fun _ => none) (8 * n) (8 * n) (8 * n) 1024 (boot (0x200000 + 4096 * m) phys) := by
  have hpage : physicalPage = 7800 := rfl
  have hbase : memBase = 0x200 := rfl
  have hall : (0x200000 + 4096 * m + 4294967296 - (4096 * 256 + 0x100000)) % 4294967296 / 4096 % 65536 = m := by omega
  refine ⟨rfl, fun f hf => ?_, ?_, ?_, ⟨0, ?_, fun j _ _ => clearBitmap_bit _ j⟩, ?_⟩
  · unfold Vm.Pooled Vm.Holds boot Bitmap.size clearBitmap at hf
    simp only [Vm.pool_kernel, Vm.pool_user, hall] at hf
    omega
  · unfold boot
    simp only [hall, clearBitmap_free]
    omega
  · unfold boot
    simp only [hall, clearBitmap_free]
    omega
  · unfold boot Bitmap.size clearBitmap
    simp only [hall]
    omega
  · exact le_of_eq (clearBitmap_free 128).symm

/-- A call that returns is a step of a run. -/
theorem runs_step {C : Call → Vm → Prop} {c : Call} {P : Vm → Prop}
    (h : runs (fun _ => False) c.cmd (fun _ s' => P s') s) (hc : C c s) :
    ∃ s', Steps Call.cmd C [c] s s' ∧ P s' := by
  obtain ⟨r, s', he, hp⟩ := returns_of_runs h
  exact ⟨s', .cons hc he (.nil s'), hp⟩

/-- Where there is memory for it, the first process is started. -/
theorem first_process {m : Nat} (hm : m ≤ physicalPage) (hn : 16 * n ≤ m) (phys : Nat → Bytes) (name : List UInt8)
    (hk : 26 + k ≤ 8 * n) (ha : 1 + a ≤ 8 * n) (he : 25 + e ≤ 8 * n) (hl : 1 + l ≤ 1024) :
    ∃ L s c t, Steps Call.cmd Call.Ready [.execute name, .activate c, .start] (boot (0x200000 + 4096 * m) phys) s ∧
      Lone L s c t ∧ t.name = name ∧ (Vm.SamePools (boot (0x200000 + 4096 * m) phys) s ∧
        s.kernelVaddr.free + 22 ≤ (boot (0x200000 + 4096 * m) phys).kernelVaddr.free) ∧ Has s.tasks k a e l s := by
  have h₀ := boot_sound (0x200000 + 4096 * m) phys
  have hh₀ := boot_has hm hn phys
  have hdead : ∀ q v, entries (fun _ => none) (boot (0x200000 + 4096 * m) phys) (.pte q v) = none := fun _ _ => rfl
  have hnone : ∀ q, (boot (0x200000 + 4096 * m) phys).tasks q = none := fun _ => rfl
  have hlist : (boot (0x200000 + 4096 * m) phys).threadAllList = [] := rfl
  have hcur : (boot (0x200000 + 4096 * m) phys).cur = mainThread := rfl
  generalize boot (0x200000 + 4096 * m) phys = s₀ at *
  have hfew : alive (fun _ => none) + 1 < 256 := by
    unfold alive
    simp
  -- `process_execute`
  obtain ⟨s₁, hs₁, c, d, t, h₁, hx, hfree₁, hh₁⟩ := runs_step (C := Call.Ready) (c := .execute name)
    (runs_mono (h₀.processExecute_within (B := True) (a := 1 + k) (x := 1 + a) (e := e) (l := l) hfew (.inl hcur) name
      fun _ => by
        rw [show s₀.tasks = fun _ => none from funext hnone]
        exact hh₀.mono (by omega) (by omega) (by omega) (by omega))
      (fun _ hx => hx.2 trivial) fun _ _ hq => hq) ⟨⟨.inl hcur, by rw [h₀.live]; exact hfew⟩, trivial⟩
  have hlive : t.live = true := by
    obtain ⟨t', ht', hl', -⟩ := h₁.dir_ref (p := c) (update_self ..)
    rw [hx.record] at ht'
    cases ht'
    exact hl'
  have hready : t.status ≠ .hanging := by
    rw [hx.made]
    simp
  -- `process_activate`
  obtain ⟨s₂, hs₂, h₂, f, rfl⟩ := runs_step (C := Call.Ready) (c := .activate c) (h₁.processActivate hx.record hready)
    ⟨⟨t, hx.record, hready⟩, trivial⟩
  have hent₂ : entries (update (fun _ => none) c (some d)) { s₁ with cr3 := f, cur := c } =
      entries (update (fun _ => none) c (some d)) s₁ := entries_congr rfl rfl
  have hno : ∀ v, entries (update (fun _ => none) c (some d)) { s₁ with cr3 := f, cur := c } (.pte c v) = none :=
    fun v => by rw [hent₂, hx.page, hdead]
  -- `start_process`
  obtain ⟨s₃, hs₃, h₃, hg, hh₃⟩ := runs_step (C := Call.Ready) (c := .start)
    (h₂.start_returns (k := k) (a := a) (e := e) (l := l) hx.record hlive (hno _) ((hh₁ trivial).of_eq rfl))
    ⟨⟨t, hx.record, hlive⟩, trivial⟩
  have htasks : s₃.tasks = s₁.tasks := hg.rest.tasks
  obtain ⟨i, -, hi, hpb⟩ := hx.newPid
  refine ⟨_, s₃, c, t, hs₁.append (hs₂.append hs₃), ⟨h₃, hg.rest.cur, by rw [htasks]; exact hx.record, hlive,
    fun q hq => by rw [htasks, hx.others q hq]; exact hnone q, ?_, ⟨i, hi, ?_⟩, ?_, fun v hv => ?_⟩, ?_, ?_, hh₃⟩
  · rw [hg.rest.threadAllList]
    show s₁.threadAllList = [c]
    rw [hx.threadAllList, hlist]
    rfl
  · rw [hg.rest.pidBitmap]
    show s₁.pidBitmap.bit i = true
    rw [hpb, Bitmap.bit_set_self]
  · obtain ⟨g, hg', -⟩ := hg.new userStack3 (Nat.le_refl _) (Nat.lt_succ_self _)
    exact ⟨_, hg'⟩
  · have hvs : v < userStack3 ∨ userStack3 + 1 ≤ v := by omega
    exact (hg.other v hvs).trans (hno v)
  · rw [hx.made]
  · have hpools := hg.rest.toSamePools
    have hle : s₃.kernelVaddr.free ≤ s₁.kernelVaddr.free :=
      h₁.kernelBits.free_le h₃.kernelBits hg.room fun v hv => by rwa [hg.kernelPte]
    exact ⟨hx.toSamePools.trans ⟨hpools.kernelStart, hpools.kernelSize, hpools.userStart, hpools.userSize⟩,
      by omega⟩

/-- The page of the stack needs one table. -/
theorem Sound.tables_stack (h : Sound L s) (ht : s.tasks c = some t) (hl : t.live = true)
    (hno : ∀ v, v ≠ userStack3 → entries L s (.pte c v) = none) : tableCnt (s.btmp t.userprogVaddr) ≤ 1 := by
  have hu := h.user c t ht hl
  have hlast : userVaddrStart + 8 * userBtmpLen = kernelBase := by decide
  unfold tableCnt
  refine Finset.card_le_one_iff_subset_singleton.2 ⟨userStack3 / 1024, fun e he => ?_⟩
  simp only [tablesFrom, Finset.mem_filter] at he
  obtain ⟨v, hv, h1, h2, hb⟩ := overUsed_iff.1 he.2.1
  have hpage := (hu.bit (v - userVaddrStart) (by omega)).1 hb
  rw [show userVaddrStart + (v - userVaddrStart) = v by omega] at hpage
  have hstack : v = userStack3 := by
    by_contra hne
    exact hpage (hno v hne)
  rw [Finset.mem_singleton, ← hv, hstack]

/-- It is the only address space. -/
theorem Lone.dead (h : Lone L s p t) (hq : q ≠ p) : L q = none := by
  rw [← h.sound.live]
  unfold Vm.spaces
  rw [h.alone q hq]
  rfl

theorem Lone.alive_le (h : Lone L s p t) : alive L ≤ 1 := by
  have hone : alive L ≤ ({p} : Set Nat).ncard := Set.ncard_le_ncard (fun q hq => by
    by_contra hne
    exact hq (h.dead hne)) (Set.finite_singleton p)
  rwa [Set.ncard_singleton] at hone

theorem Lone.few (h : Lone L s p t) : alive L + 1 < 256 := by
  have hone := h.alive_le
  omega

/-- The first process forks. -/
theorem Lone.fork (h : Lone L s p t) (hname : t.name.length < 16)
    (hh : Has s.tasks (33 + k) a (25 + e) (1 + l) s) :
    ∃ s' c d tc, Steps Call.cmd Call.Ready [.fork] s s' ∧ HasForked L s s' p c d t tc ∧
      Pair (update L c (some d)) s' p c t tc ∧ Has s'.tasks k a e l s' := by
  have hp : s.tasks s.cur = some t := by rw [h.cur]; exact h.record
  have htables := h.sound.tables_stack h.record h.live h.page
  have hroom : s.bitmapRoom = true :=
    (hh.mono (le_refl (33 + k)) (le_refl a) (by omega : 24 ≤ 25 + e) (le_refl (1 + l))).bitmapRoom (le_refl 24)
  have hfew := h.few
  obtain ⟨s', hs', c, d, tc, h', hf, hh'⟩ := runs_step (C := Call.Ready) (c := .fork)
    (runs_drop (runs_post (h.sound.fork_returns (k := k) (a := a) (e := e) (l := l) hp h.live hfew hroom hname
      (hh.mono (by omega) (by omega) (by omega) (by omega))) fun _ s' ⟨c, d, tc, hs', hf, _, hq⟩ =>
        (⟨c, d, tc, hs', hf, hq⟩ : ∃ c d tc, Sound (update L c (some d)) s' ∧ HasForked L s s' s.cur c d t tc ∧
          Has s'.tasks k a e l s')))
    ⟨⟨⟨t, hp, h.live⟩, by rw [h.sound.live]; exact hfew⟩, hroom⟩
  rw [h.cur] at hf
  have hne : c ≠ p := by
    rintro rfl
    have hno := hf.unborn
    rw [h.record] at hno
    cases hno
  obtain ⟨w, hw⟩ := h.stack
  have hrw : refs L s (.pte p userStack3) = some (w / 4096) := refs_eq_some.2 ⟨w, hw, rfl⟩
  obtain ⟨pid, hcop⟩ := hf.copied
  obtain ⟨i, hi, hbit⟩ := h.pid
  obtain ⟨j, hj, hpid, -⟩ := hf.newPid
  refine ⟨s', c, d, tc, hs', hf, ⟨h', hf.cur.trans h.cur, ?_, hf.record, hne, h.live, ?_, fun q hqp hqc => ?_, ?_, ?_, ?_,
    ⟨i, j, hi, hpid, ?_⟩, ⟨w / 4096, ?_, ?_⟩, fun q v hv => ?_⟩, hh'⟩
  · rw [hf.others p (Ne.symm hne)]
    exact h.record
  · obtain ⟨t', ht', hl', -⟩ := h'.dir_ref (p := c) (update_self ..)
    rw [hf.record] at ht'
    cases ht'
    exact hl'
  · rw [hf.others q hqc]
    exact h.alone q hqp
  · rw [hf.threadAllList, h.threadAllList]
    rfl
  · rw [hcop]
    rfl
  · rw [hcop]
    rfl
  · rintro rfl
    rw [hbit] at hj
    cases hj
  · rw [hf.parent, hrw]
    rfl
  · rw [hf.child, hrw]
    rfl
  · have hno : refs L s (.pte p v) = none := refs_eq_none.2 (h.page v hv)
    by_cases hqp : q = p
    · rw [hqp, hf.parent, hno]
      rfl
    · by_cases hqc : q = c
      · rw [hqc, hf.child, hno]
        rfl
      · rw [hf.page q v hqp hqc]
        exact (entries_dead (i := 0) (h.dead hqp)).2

/-- A process and its child, on any machine with memory enough. -/
theorem two_processes {m : Nat} (hm : m ≤ physicalPage) (hn : 16 * n ≤ m) (phys : Nat → Bytes)
    (hk : 59 + k ≤ 8 * n) (ha : 1 + a ≤ 8 * n) (he : 50 + e ≤ 8 * n) (hl : 2 + l ≤ 1024) :
    ∃ L s₀ s p c d t tc, Reachable Call.Ready s₀ ∧ Lone L s₀ p t ∧ Steps Call.cmd Call.Ready [.fork] s₀ s ∧
      HasForked L s₀ s p c d t tc ∧ Pair (update L c (some d)) s p c t tc ∧ t.name = [] ∧ Has s.tasks k a e l s := by
  obtain ⟨L, s₀, p, t, hs₀, h₀, hname, -, hh₀⟩ := first_process (k := 33 + k) (a := a) (e := 25 + e) (l := 1 + l) hm hn
    phys [] (by omega) ha (by omega) (by omega)
  obtain ⟨s, c, d, tc, hs, hf, hp, hh⟩ := h₀.fork (k := k) (a := a) (e := e) (l := l) (by rw [hname]; decide) hh₀
  exact ⟨L, s₀, s, p, c, d, t, tc, ⟨_, phys, _, hs₀⟩, h₀, hs, hf, hp, hname, hh⟩

end

end Enix.Memory
