import Enix.Memory.Progress

/-!
# What a process leaves behind

A bitmap takes `DIV_ROUND_UP(len, PG_SIZE)` pages of the kernel, and
`release_prog_resource` gives back `len / PG_SIZE`.

* `Sound.stays`: no call gives back the last page of a bitmap.
* `fork_leaks`: so of the pages that a fork takes, one is never free again;
  `fork_keeps_page`: not even when the child has exited and been reaped.
-/
set_option autoImplicit false

namespace Enix.Memory
open Enix.Core Enix.Kernel Function

/-- Page `w` of the kernel is there, and is of no process but `c`, as the last
page of its bitmap. -/
structure Stays (s : Vm) (c w : Nat) : Prop where
  heap : kHeapStart ≤ w
  there : present (s.kernelPte w) = true
  owner : ∀ p a, s.part p a = some w → p = c ∧ a = .map (userBtmpLen / 4096)

/-- The kernel itself gives back pages that it has, and `w` is not among them. -/
def Call.Spares (w : Nat) : Call → Prop
  | mfree .kernel v n => ¬ (v ≤ w ∧ w < v + n)
  | _ => True

/-- A call in a run that leaves page `w` to its process. -/
def Call.ReadyBut (w : Nat) (op : Call) (s : Vm) : Prop := op.Ready s ∧ op.Spares w

/-- The pages of the kernel that process `c` had in `s` are free in `s'`, and so are
the frames behind them. -/
def Returned (s s' : Vm) (c : Nat) : Prop := ∀ a v, s.part c a = some v →
  s'.kernelVaddr.bit (v - kHeapStart) = false ∧ s'.frameBit (s.kernelPte v / 4096) = false

section
variable {K L : Spaces} {s s₁ s₂ s' : Vm} {t tc : TaskStruct} {op : Call} {calls : List Call} {c d f p q v w n : Nat}

theorem part_of_task (h : s'.tasks p = s.tasks p) (a : Part) : s'.part p a = s.part p a := by
  unfold Vm.part
  rw [h]

theorem part_some {a : Part} (ht : s.tasks p = some t) : s.part p a = t.part p a := by
  unfold Vm.part
  rw [ht]
  rfl

/-- A process that has ended has no bitmap. -/
theorem part_dead {k : Nat} (ht : s.tasks p = some t) (hl : t.live = false) : s.part p (.map k) = none := by
  rw [part_some ht]
  simp [TaskStruct.part, hl]

theorem Stays.next (h : Stays s c w) (hk : ∀ f, refs L s (.kernel w) = some f → refs K s' (.kernel w) = some f)
    (hp : ∀ p a, s'.part p a = some w → s.part p a = some w) : Stays s' c w where
  heap := h.heap
  there := (refs_kernel.1 (hk _ (refs_kernel.2 ⟨h.there, rfl⟩))).1
  owner p a hpa := h.owner p a (hp p a hpa)

/-- A page that is there is not new. -/
theorem Stays.old (h : Stays s c w) : entries L s (.kernel w) ≠ none := by
  rw [entries_kernel.2 ⟨h.there, rfl⟩]
  simp

theorem Stays.same (h : Stays s c w) (hk : s'.kernelPte = s.kernelPte) (ht : s'.tasks = s.tasks) : Stays s' c w :=
  h.next (L := fun _ => none) (K := fun _ => none) (fun f hf => by rw [refs_kernel] at hf ⊢; rwa [hk])
    fun p a hp => by rwa [part_congr ht] at hp

/-- The pages of a new process are new. -/
theorem Stays.born (h : Stays s c w) (hk : ∀ u x, entries L s (.kernel u) = some x → entries K s' (.kernel u) = some x)
    (ht : s'.tasks q = some tc) (ho : ∀ p, p ≠ q → s'.tasks p = s.tasks p)
    (hp : ∀ a v, tc.part q a = some v → kHeapStart ≤ v ∧ entries L s (.kernel v) = none) : Stays s' c w := by
  refine h.next (L := L) (K := K) (fun f hf => ?_) fun p a hpa => ?_
  · obtain ⟨x, hx, hxf⟩ := refs_eq_some.1 hf
    exact refs_eq_some.2 ⟨x, hk w x hx, hxf⟩
  · by_cases hpq : p = q
    · rw [hpq, part_some ht] at hpa
      exact absurd (hp a w hpa).2 h.old
    · rwa [part_of_task (ho p hpq)] at hpa

/-- What `sys_exit` gives back is other pages of the bitmap. -/
theorem Stays.exited (h : Stays s c w) (ht : s.tasks p = some t) (hl : t.live = true) (hx : HasExited L s s' p t) :
    Stays s' c w := by
  refine h.next (L := L) (K := update L p none) (fun f hf => ?_) fun q a hq => ?_
  · unfold refs refsOf at hf ⊢
    rwa [hx.kernel w fun k hk he => ?_]
    have hlt : userBtmpLen / 4096 < bitmapPgCnt := by decide
    obtain ⟨-, hc⟩ := h.owner p (.map k) (by rw [part_map ht hl (by omega), he])
    injection hc with hc
    omega
  · by_cases hqp : q = p
    · obtain ⟨u, hu, hud, hus, -⟩ := hx.record
      rw [hqp] at hq ⊢
      rw [part_some hu] at hq
      rw [part_some ht]
      cases a with
      | pcb => exact hq
      | dir =>
        unfold TaskStruct.part at hq ⊢
        rwa [hud] at hq
      | map k => simp [TaskStruct.part, hanging_dead hus] at hq
    · rwa [part_like (hx.tasks q hqp)] at hq

/-- What is given back when a thread is reaped is its directory and its record. -/
theorem Stays.reaped (h : Stays s c w) (hl : t.live = false) (hr : HasReaped L s s' q t) : Stays s' c w := by
  refine h.next (L := L) (K := L) (fun f hf => ?_) fun p a hp => ?_
  · unfold refs refsOf at hf ⊢
    rwa [hr.other _ fun a v hv he => ?_]
    injection he with he
    obtain ⟨-, rfl⟩ := h.owner q a (he ▸ hv)
    rw [part_dead hr.record hl] at hv
    cases hv
  · unfold Vm.part at hp ⊢
    rw [hr.tasks] at hp
    by_cases hpq : p = q
    · rw [hpq, update_self] at hp
      cases hp
    · rwa [update_of_ne hpq] at hp

/-- No call gives back the last page of a bitmap, and nobody else gets it. -/
theorem Sound.stays (h : Sound L s) (hs : Stays s c w) (hc : op.ReadyBut w s) :
    runs (fun _ => True) op.cmd (fun _ s' => (∃ L', Sound L' s') ∧ Stays s' c w) s := by
  obtain ⟨⟨hlegal, hroom⟩, hspare⟩ := hc
  have hlive := h.live
  have hkeep : ∀ {u n s'}, NewPages L s s' u n → Stays s' c w := fun hn =>
    hs.next (L := L) (K := L) (fun f hf => hn.keeps_ref hf) fun p a hp => by rwa [part_congr hn.rest.tasks] at hp
  cases op with
  | mainThread =>
    refine runs_mono (h.makeMainThread hlegal) (fun _ _ => trivial) ?_
    rintro - s' ⟨h', hk, hp⟩
    refine ⟨⟨L, h'⟩, hs.next (L := L) (K := L) (fun f hf => by rw [refs_kernel] at hf ⊢; rwa [hk]) fun p a hpa => ?_⟩
    rcases hp p a w hpa with ⟨-, -, hw⟩ | hold
    · have hheap := hs.heap
      rw [hw] at hheap
      exact absurd hheap (by decide)
    · exact hold
  | activate p =>
    obtain ⟨t, ht, hst⟩ := hlegal
    refine runs_mono (h.processActivate ht hst) (fun _ _ => trivial) ?_
    rintro - _ ⟨h', f, rfl⟩
    exact ⟨⟨L, h'⟩, hs.same rfl rfl⟩
  | execute name =>
    obtain ⟨hcur, hfew⟩ := hlegal
    rw [hlive] at hfew
    refine runs_mono (h.processExecute hfew hcur name) (fun _ _ => trivial) ?_
    rintro - s' ⟨q, d, tc, h', hx⟩
    exact ⟨⟨_, h'⟩, hs.born hx.kernel hx.record hx.others hx.parts⟩
  | start =>
    obtain ⟨t, ht, hl⟩ := hlegal
    refine runs_drop (runs_mono (h.getAPageUser ht hl (by decide)) (fun _ _ => trivial) ?_)
    rintro r s' ⟨-, h', hg⟩
    exact ⟨⟨L, h'⟩, hs.same hg.kernelPte hg.rest.tasks⟩
  | malloc pf n =>
    cases pf with
    | kernel =>
      refine runs_drop ?_
      by_cases hn : 0 < n ∧ n < 3840
      · refine runs_mono (h.mallocKernel hn.1 hn.2) (fun _ _ => trivial) ?_
        rintro r s' (⟨-, rfl⟩ | ⟨v, -, h', hn, -⟩)
        · exact ⟨⟨L, h⟩, hs⟩
        · exact ⟨⟨L, h'⟩, hkeep hn⟩
      · unfold mallocPage
        exact runs_guard_bind (fun _ => trivial) fun hc => absurd hc hn
    | user =>
      obtain ⟨t, ht, hl⟩ := hlegal
      refine runs_drop (runs_mono (h.mallocUser ht hl n) (fun _ _ => trivial) ?_)
      rintro r s' (⟨-, h', rfl, -⟩ | ⟨v, -, h', hg⟩)
      · exact ⟨⟨L, h'⟩, hs⟩
      · exact ⟨⟨L, h'⟩, hs.same hg.kernelPte hg.rest.tasks⟩
  | kernelPages n =>
    refine runs_drop ?_
    by_cases hn : 0 < n ∧ n < 3840
    · refine runs_mono (h.getKernelPages hn.1 hn.2) (fun _ _ => trivial) ?_
      rintro r s' (⟨-, rfl, -⟩ | ⟨v, -, h', hg⟩)
      · exact ⟨⟨L, h⟩, hs⟩
      · exact ⟨⟨L, h'⟩, hkeep hg.toNewPages⟩
    · unfold Memory.getKernelPages mallocPage
      rw [runs_bind]
      exact runs_guard_bind (fun _ => trivial) fun hc => absurd hc hn
  | mfree pf v n =>
    by_cases hn : 1 ≤ n
    · cases pf with
      | kernel =>
        obtain ⟨hv, hp, hown⟩ := hlegal
        refine runs_mono (h.mfreeKernel hv hn hp hown) (fun _ _ => trivial) ?_
        rintro - s' ⟨h', hlost, -⟩
        refine ⟨⟨L, h'⟩, hs.next (L := L) (K := L) (fun f hf => hlost.keeps hf fun k hk he => hspare ?_) fun p a hpa =>
          by rwa [part_congr hlost.rest.tasks] at hpa⟩
        injection he
        omega
      | user =>
        obtain ⟨⟨t, ht, hl⟩, hp⟩ := hlegal
        rw [hlive] at hp
        refine runs_mono (h.mfreeUser ht hl hn fun u h1 h2 => Option.ne_none_iff_exists'.1 (hp u h1 h2))
          (fun _ _ => trivial) ?_
        rintro - s' ⟨h', hf, -⟩
        exact ⟨⟨L, h'⟩, hs.same hf.kernelPte hf.rest.tasks⟩
    · unfold Call.cmd mfreePage
      exact runs_guard_bind (fun _ => trivial) fun hc => absurd hc hn
  | page pf v =>
    obtain ⟨⟨t, ht, hst⟩, hv⟩ := hlegal
    refine runs_drop (runs_mono (h.getAPage ht hst pf hv) (fun _ _ => trivial) ?_)
    rintro r s' ⟨h', hg | hn⟩
    · exact ⟨⟨L, h'⟩, hs.same hg.kernelPte hg.rest.tasks⟩
    · exact ⟨⟨L, h'⟩, hkeep hn⟩
  | fork =>
    obtain ⟨⟨t, ht, hl⟩, hfew⟩ := hlegal
    rw [hlive] at hfew
    refine runs_drop (runs_mono (h.sysFork ht hl hfew hroom) (fun _ _ => trivial) ?_)
    rintro r s' ⟨q, d, tc, h', hf, -⟩
    exact ⟨⟨_, h'⟩, hs.born hf.kernel hf.record hf.others hf.parts⟩
  | load a =>
    obtain ⟨⟨t, ht, hl⟩, ha⟩ := hlegal
    refine runs_drop ?_
    unfold runs
    rw [h.userLoad (h.inUse t ht hl) ha]
    cases image L s s.cur (a / 4096) with
    | none => trivial
    | some b => exact ⟨⟨L, h⟩, hs⟩
  | store a x =>
    obtain ⟨⟨t, ht, hl⟩, ha⟩ := hlegal
    refine runs_mono (h.userStore (B := False) ht hl ha x fun hb => hb.elim) (fun _ _ => trivial) ?_
    rintro - s' ⟨h', -, f, s₁, -, hs₁, g, rfl, -⟩
    have hst : Stays s₁ c w := by
      rcases hs₁ with rfl | hu
      · exact hs
      · exact hs.next (L := L) (K := L) (fun f hf => hu.kernel w f hf) fun p a hp => by
          rwa [part_congr hu.rest.tasks] at hp
    exact ⟨⟨L, h'⟩, hst.same rfl rfl⟩
  | fault v =>
    obtain ⟨⟨t, ht, hl⟩, hv⟩ := hlegal
    refine runs_mono (h.pageFault (B := False) ht hl hv fun hb => hb.elim) (fun _ _ => trivial) ?_
    rintro - s' ⟨f, hr, h', hu⟩
    exact ⟨⟨L, h'⟩, hs.next (L := L) (K := L) (fun f hf => hu.kernel w f hf) fun p a hp => by
      rwa [part_congr hu.rest.tasks] at hp⟩
  | kernelStore a x =>
    obtain ⟨⟨t, ht, hl⟩, ha⟩ := hlegal
    have hLc := h.inUse t ht hl
    cases hr' : refs L s (.pte s.cur (a / 4096)) with
    | none =>
      unfold Call.cmd Memory.storeByte
      rw [runs_read_bind, walk_user hLc ha, hr', get_none, runs_bind]
      exact trivial
    | some f =>
      obtain ⟨hrun, hs'⟩ := h.storeByte hLc hr' x
      exact (runs_ok hrun).2 ⟨⟨L, hs'⟩, hs.same rfl rfl⟩
  | exit =>
    obtain ⟨t, ht, hl⟩ := hlegal
    refine runs_mono (h.sysExit ht hl) (fun _ _ => trivial) ?_
    rintro - s' ⟨h', hx⟩
    exact ⟨⟨_, h'⟩, hs.exited ht hl hx⟩
  | wait =>
    obtain ⟨t, ht, hst⟩ := hlegal
    refine runs_drop (runs_mono (h.sysWait ht hst) (fun _ _ => trivial) ?_)
    rintro r s' ⟨h', ⟨q, tc, -, -, hhang, hr⟩ | ⟨-, rfl | rfl⟩⟩
    · exact ⟨⟨L, h'⟩, hs.reaped (hanging_dead hhang) hr⟩
    · exact ⟨⟨L, h'⟩, hs⟩
    · refine ⟨⟨L, h'⟩, hs.next (L := L) (K := L) (fun f hf => hf) fun p a hp => ?_⟩
      by_cases hpc : p = s.cur
      · have hwait : (s.setTask s.cur (some { t with status := .waiting })).tasks s.cur =
            some { t with status := .waiting } := update_self ..
        rw [hpc, part_some hwait] at hp
        rw [hpc, part_some ht]
        unfold TaskStruct.part TaskStruct.live at hp ⊢
        simpa [hst] using hp
      · rwa [part_of_task (show (s.setTask s.cur _).tasks p = s.tasks p from update_of_ne hpc _ _)] at hp
  | reap q =>
    obtain ⟨t, ht, hl⟩ := hlegal
    refine runs_mono (h.threadExit ht hl) (fun _ _ => trivial) ?_
    rintro - s' ⟨h', hr⟩
    exact ⟨⟨L, h'⟩, hs.reaped hl hr⟩

/-- The page stays in every run. -/
theorem Sound.stays_run (h : Sound L s) (hs : Stays s c w) (hr : Steps Call.cmd (Call.ReadyBut w) calls s s') :
    (∃ L', Sound L' s') ∧ Stays s' c w := by
  refine hr.invariant (I := fun s => (∃ L', Sound L' s) ∧ Stays s c w) ?_ ⟨⟨L, h⟩, hs⟩
  rintro op s₁ a s₂ ⟨⟨L₁, h₁⟩, hs₁⟩ hc he
  have hnext := runs_of_ok (h₁.stays hs₁ hc) he
  exact hnext

/-- A new process has a last page of its bitmap. -/
theorem Sound.stays_live (h : Sound L s) (ht : s.tasks p = some t) (hl : t.live = true) :
    Stays s p (t.userprogVaddr.bits + userBtmpLen / 4096) := by
  have hp := part_map ht hl (k := userBtmpLen / 4096) (by decide)
  obtain ⟨hv, f, hf⟩ := h.live_ref ht hl hp
  refine ⟨hv, (refs_kernel.1 hf).1, fun q a hq => ?_⟩
  exact h.own q p a _ _ hq hp

/-- While the page is there it is not free, and neither is its frame. -/
theorem Stays.taken (hs : Stays s c w) (h : Sound L s) :
    s.kernelVaddr.bit (w - kHeapStart) = true ∧ s.frameBit (s.kernelPte w / 4096) = true := by
  have hr : refs L s (.kernel w) = some (s.kernelPte w / 4096) := refs_kernel.2 ⟨hs.there, rfl⟩
  have hheap := hs.heap
  have hf := Vm.holds_pooled ((home_kernel hheap).1 (h.frames.ok.home _ _ hr))
  refine ⟨h.kernelBits.set _ ?_, (h.frames.bits _ hf).2 (h.frames.bal.counted h.frames.ok.fin hf hr (le_refl 0))⟩
  rw [show kHeapStart + (w - kHeapStart) = w by omega]
  exact hs.there

/-- The last page of the bitmap of a child is new, and is taken ever after. -/
theorem HasForked.leaks (hf : HasForked L s s₁ p c d t tc) (h : Sound (update L c (some d)) s₁) :
    ∃ w, s₁.part c (.map (userBtmpLen / 4096)) = some w ∧ present (s.kernelPte w) = false ∧
      ∀ calls s₂, Steps Call.cmd (Call.ReadyBut w) calls s₁ s₂ →
        s₂.kernelVaddr.bit (w - kHeapStart) = true ∧ s₂.frameBit (s₂.kernelPte w / 4096) = true ∧ ¬ Returned s₁ s₂ c := by
  have hl : tc.live = true := by
    obtain ⟨t', ht', hl', -⟩ := h.dir_ref (p := c) (update_self ..)
    rw [hf.record] at ht'
    cases ht'
    exact hl'
  have hpart := part_map hf.record hl (k := userBtmpLen / 4096) (by decide)
  refine ⟨_, hpart, ?_, fun calls s₂ hr => ?_⟩
  · rw [part_some hf.record] at hpart
    obtain ⟨-, hno⟩ := hf.parts _ _ hpart
    by_contra hpres
    rw [entries_kernel.2 ⟨Bool.of_not_eq_false hpres, rfl⟩] at hno
    cases hno
  · obtain ⟨⟨L', h'⟩, hs⟩ := h.stays_run (h.stays_live hf.record hl) hr
    obtain ⟨hbit, hframe⟩ := hs.taken h'
    refine ⟨hbit, hframe, fun hret => ?_⟩
    obtain ⟨hclear, -⟩ := hret _ _ hpart
    rw [hbit] at hclear
    cases hclear

/-- The child of a pair exits, and its parent waits for it. -/
theorem Pair.reaped (h : Pair L s p c t tc) (w : Nat) :
    ∃ s', Steps Call.cmd (Call.ReadyBut w) [.activate c, .exit, .activate p, .wait] s s' ∧ s'.tasks c = none := by
  obtain ⟨i, j, hi, hj, hij⟩ := h.pids
  have hchild : tc.status ≠ .hanging := fun hc => by
    have hdead := hanging_dead hc
    rw [h.childLive] at hdead
    cases hdead
  obtain ⟨s₁, hs₁, h₁, f, rfl⟩ := runs_step (C := Call.ReadyBut w) (c := .activate c)
    (h.sound.processActivate h.child hchild) ⟨⟨⟨tc, h.child, hchild⟩, trivial⟩, trivial⟩
  -- `pid2thread` finds the parent, which comes first
  have hfind : ({ s with cr3 := f, cur := c } : Vm).pid2thread tc.parentPid = some p := by
    unfold Vm.pid2thread
    rw [h.threadAllList, List.find?_cons_of_pos]
    simp [h.parent, h.parentPid]
  obtain ⟨s₂, hs₂, h₂, hx⟩ := runs_step (C := Call.ReadyBut w) (c := .exit)
    (h₁.exit_returns h.child h.childLive (by rw [h.parentPid, hi]; omega) (by rw [h.parentPid, hi, hj]; omega)
      (by rw [hfind]; simp)) ⟨⟨⟨tc, h.child, h.childLive⟩, trivial⟩, trivial⟩
  obtain ⟨u, hu, -, hhang, hpar | hself⟩ := hx.record
  · have hlike := hx.tasks p (Ne.symm h.ne)
    rw [show ({ s with cr3 := f, cur := c } : Vm).tasks p = some t from h.parent] at hlike
    cases htp : s₂.tasks p with
    | none =>
      rw [htp] at hlike
      cases hlike
    | some tp =>
      rw [htp] at hlike
      cases hlike with
      | some hlike =>
        have hparent : tp.status ≠ .hanging := fun hc => by
          have hdead := hanging_dead hc
          rw [hlike.live, h.parentLive] at hdead
          cases hdead
        obtain ⟨s₃, hs₃, h₃, g, rfl⟩ := runs_step (C := Call.ReadyBut w) (c := .activate p)
          (h₂.processActivate htp hparent) ⟨⟨⟨tp, htp, hparent⟩, trivial⟩, trivial⟩
        -- the parent itself is not hanging, so the child is what it finds
        have hwait : ({ s₂ with cr3 := g, cur := p } : Vm).findHangingChild tp.pid = some c := by
          unfold Vm.findHangingChild
          rw [show ({ s₂ with cr3 := g, cur := p } : Vm).threadAllList = [p, c] from
            hx.threadAllList.trans h.threadAllList, List.find?_cons_of_neg, List.find?_cons_of_pos]
          · simp [hu, hpar, hhang, h.parentPid, hlike.pid]
          · simp [htp, hparent]
        obtain ⟨s₄, hs₄, -, hq⟩ := runs_step (C := Call.ReadyBut w) (c := .wait)
          (runs_drop (h₃.sysWait htp hparent)) ⟨⟨⟨tp, htp, hparent⟩, trivial⟩, trivial⟩
        refine ⟨s₄, hs₁.append (hs₂.append (hs₃.append hs₄)), ?_⟩
        rw [hwait] at hq
        rcases hq with ⟨q, u', he, -, -, hr⟩ | ⟨hno, -⟩
        · cases he
          rw [hr.tasks, update_self]
        · cases hno
  · rw [h.parentPid, hi, hj] at hself
    omega

/-- Of the pages that a fork takes one is never free again, whatever the child and
the others do, and whoever waits for it. -/
theorem fork_leaks {pid : Int} (h : Reachable Call.Ready s) (hc : Call.fork.Ready s)
    (hf : Memory.sysFork s = .ok (pid, s₁)) :
    ∃ c tc, s.tasks c = none ∧ s₁.tasks c = some tc ∧ tc.pid = pid ∧
      ∃ a w, s₁.part c a = some w ∧ present (s.kernelPte w) = false ∧
        ∀ calls s₂, Steps Call.cmd (Call.ReadyBut w) calls s₁ s₂ →
          s₂.kernelVaddr.bit (w - kHeapStart) = true ∧ s₂.frameBit (s₂.kernelPte w / 4096) = true ∧
            ¬ Returned s₁ s₂ c := by
  obtain ⟨L, hs⟩ := reachable_sound h
  obtain ⟨⟨⟨t, ht, hl⟩, hfew⟩, hroom⟩ := hc
  rw [hs.live] at hfew
  obtain ⟨c, d, tc, h₁, hfork, hpid⟩ := runs_of_ok (hs.sysFork ht hl hfew hroom) hf
  exact ⟨c, tc, hfork.unborn, hfork.record, hpid.symm, _, hfork.leaks h₁⟩

/-- A step of a run that forks is a fork. -/
theorem steps_fork {C : Call → Vm → Prop} (h : Steps Call.cmd C [.fork] s s') :
    C .fork s ∧ ∃ pid, Memory.sysFork s = .ok (pid, s') := by
  cases h with
  | cons hc he hn =>
    cases hn
    obtain ⟨pid, s₁, hf, hp⟩ := bind_eq_ok.1 he
    cases hp
    exact ⟨hc, pid, hf⟩

/-- A first process forks. -/
theorem fork_leaks_first : ∃ s s₁ pid, Memory.sysFork s = .ok (pid, s₁) ∧
    ∃ c tc, s.tasks c = none ∧ s₁.tasks c = some tc ∧ tc.pid = pid ∧
      ∃ a w, s₁.part c a = some w ∧ present (s.kernelPte w) = false ∧
        ∀ calls s₂, Steps Call.cmd (Call.ReadyBut w) calls s₁ s₂ →
          s₂.kernelVaddr.bit (w - kHeapStart) = true ∧ s₂.frameBit (s₂.kernelPte w / 4096) = true ∧
            ¬ Returned s₁ s₂ c := by
  obtain ⟨L, s, s₁, p, c, d, t, tc, hreach, -, hs, -⟩ := two_processes (m := 7680) (n := 480) (k := 0)
    (a := 0) (e := 0) (l := 0) (by decide) (by decide) (fun _ => zeros) (by decide) (by decide) (by decide) (by decide)
  obtain ⟨hready, pid, hrun⟩ := steps_fork hs
  exact ⟨s, s₁, pid, hrun, fork_leaks hreach hready hrun⟩

/-- When a child has exited and been reaped, not all of its pages are free. -/
theorem fork_keeps_page : ¬ ∀ (s s₁ s₂ : Vm) (pid : Int) (c : Nat) (tc : TaskStruct) (calls : List Call),
    Reachable Call.Ready s → Call.fork.Ready s → Memory.sysFork s = .ok (pid, s₁) →
    s.tasks c = none → s₁.tasks c = some tc → Steps Call.cmd Call.Ready calls s₁ s₂ → s₂.tasks c = none →
    Returned s₁ s₂ c := by
  intro hall
  obtain ⟨L, s, s₁, p, c, d, t, tc, hreach, -, hs, hf, hp, -, -⟩ := two_processes (m := 7680) (n := 480) (k := 0)
    (a := 0) (e := 0) (l := 0) (by decide) (by decide) (fun _ => zeros) (by decide) (by decide) (by decide) (by decide)
  obtain ⟨hready, pid, hrun⟩ := steps_fork hs
  obtain ⟨w, -, -, hleak⟩ := hf.leaks hp.sound
  obtain ⟨s₂, hs₂, hgone⟩ := hp.reaped w
  obtain ⟨-, -, hno⟩ := hleak _ _ hs₂
  exact hno (hall s s₁ s₂ pid c tc _ hreach hready hrun hf.unborn hf.record (hs₂.mono fun _ _ hc => hc.1) hgone)

end

end Enix.Memory
