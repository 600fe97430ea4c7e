import Enix.Memory.Exit

/-!
# `thread_exit` and `sys_wait`

`Sound.threadExit`: a process that has ended, or a thread of the kernel, gives
back its directory and its `task_struct`, and the others notice nothing.
`Sound.sysWait` is the parent's side of it.
-/
set_option autoImplicit false

namespace Enix.Memory
open Enix.Core Enix.Kernel Function

/-- The pages of the kernel in `X` are not there any more. -/
structure Unmapped (L : Spaces) (s s' : Vm) (X : Nat → Prop) : Prop where
  frames : Frames L quits s'
  bits : KernelBits s'
  gone : ∀ v, X v → entries L s' (.kernel v) = none
  other : ∀ r, (∀ v, X v → r ≠ .kernel v) → entries L s' r = entries L s r
  phys : s'.phys = s.phys
  room : s'.kernelVaddr.size = s.kernelVaddr.size
  base : s'.kernelPte kernelBase = s.kernelPte kernelBase
  rest : Rest s s'

/-- Thread `q` with record `t` is no more: its directory and its `task_struct`
are given back. -/
structure HasReaped (L : Spaces) (s s' : Vm) (q : Nat) (t : TaskStruct) : Prop extends Vm.SamePools s s' where
  record : s.tasks q = some t
  tasks : s'.tasks = update s.tasks q none
  gone : ∀ a v, s.part q a = some v → q ≠ mainThread → entries L s' (.kernel v) = none
  other : ∀ r, (∀ a v, s.part q a = some v → r ≠ .kernel v) → entries L s' r = entries L s r
  phys : s'.phys = s.phys
  threadAllList : s'.threadAllList = s.threadAllList.erase q
  cur : s'.cur = s.cur
  cr3 : s'.cr3 = s.cr3

section
variable {L : Spaces} {s s₁ s' : Vm} {t tc : TaskStruct} {X Y : Nat → Prop}
  {f k n p q v w : Nat}

theorem Unmapped.refl (h : Sound L s) : Unmapped L s s (fun _ => False) :=
  ⟨h.frames, h.kernelBits, fun _ hX => hX.elim, fun _ _ => rfl, rfl, rfl, rfl, Rest.refl s⟩

theorem Unmapped.mono (h : Unmapped L s s' X) (hXY : ∀ v, X v ↔ Y v) : Unmapped L s s' Y where
  frames := h.frames
  bits := h.bits
  gone v hv := h.gone v ((hXY v).2 hv)
  other r hr := h.other r fun v hv => hr v ((hXY v).1 hv)
  phys := h.phys
  room := h.room
  base := h.base
  rest := h.rest

/-- `mfree_page` on a page of the kernel whose frame is no directory in use. -/
theorem Unmapped.free (h : Unmapped L s s₁ X) (hv : kHeapStart ≤ v) (hr : refs L s (.kernel v) = some f)
    (hd : ∀ p, L p ≠ some f) (hX : ¬ X v) :
    runs (fun _ => False) (mfreePage .kernel v 1) (fun _ s' => Unmapped L s s' (fun u => X u ∨ u = v)) s₁ := by
  have hr₁ : refs L s₁ (.kernel v) = some f := by
    unfold refs refsOf at hr ⊢
    rwa [h.other _ fun u hu he => hX (by injection he with he; rwa [he])]
  refine runs_post (mfreePage_kernel h.frames (fun _ => le_refl 0) h.bits hv (le_refl 1) fun k hk => ?_) ?_
  · rw [show v + k = v by omega]
    exact ⟨f, hr₁, hd⟩
  · rintro - s' ⟨hf, hk, hl, hkv⟩
    refine ⟨hf, hk, fun u hu => ?_, fun r hr' => ?_, hl.phys.trans h.phys, by rw [hkv, setRange_size, h.room],
      (hl.pte _ (.inl (by unfold kHeapStart at hv; unfold kernelBase; omega))).trans h.base, h.rest.trans hl.rest⟩
    · rcases hu with hu | rfl
      · by_cases huv : u = v
        · exact absurd (huv ▸ hu) hX
        · rw [hl.other _ fun k hk he => huv (by injection he with he; omega)]
          exact h.gone u hu
      · exact hl.gone 0 (by decide)
    · rw [hl.other r fun k hk he => hr' v (.inr rfl) (by rw [he, show v + k = v by omega]),
        h.other r fun u hu he => hr' u (.inl hu) he]

/-- The record of a thread without a space is dropped. -/
theorem Sound.forget (h : Sound L s) (ht : s.tasks q = some t) (hl : t.live = false) :
    Sound L (s.setTask q none) := by
  have hent : entries L (s.setTask q none) = entries L s := entries_congr rfl rfl
  have hrefs : refs L (s.setTask q none) = refs L s := refs_congr rfl rfl
  have hold : ∀ p u, (s.setTask q none).tasks p = some u → s.tasks p = some u := by
    intro p u hu
    by_cases hp : p = q
    · have hself : (s.setTask q none).tasks q = none := update_self ..
      rw [hp, hself] at hu
      cases hu
    · rwa [show (s.setTask q none).tasks p = s.tasks p from update_of_ne hp ..] at hu
  have hpart : ∀ p a v, (s.setTask q none).part p a = some v → s.part p a = some v := by
    intro p a v hp
    unfold Vm.part at hp ⊢
    cases hu : (s.setTask q none).tasks p with
    | none =>
      rw [hu] at hp
      cases hp
    | some u =>
      rw [hu] at hp
      rw [hold p u hu]
      exact hp
  refine ⟨?_, h.few, ⟨h.kernelBits.set, h.kernelBits.mapped⟩, h.room, h.top, ?_,
    fun p a v hp => h.mapped p a v (hpart p a v hp), fun u hu => h.main u (hold _ u hu),
    fun p p' a b v hp hp' => h.own p p' a b v (hpart p a v hp) (hpart p' b v hp'), fun p u hu hul => ?_, ?_,
    fun u hu hul => h.inUse u (hold _ u hu) hul⟩
  · unfold Frames
    rw [hent]
    exact h.frames.of_eq rfl rfl rfl
  · funext p
    rw [← h.live]
    unfold Vm.spaces
    by_cases hp : p = q
    · rw [hp, show (s.setTask q none).tasks q = none from update_self .., ht]
      simp [hl]
    · rw [show (s.setTask q none).tasks p = s.tasks p from update_of_ne hp ..]
      rfl
  · have hu' := h.user p u (hold p u hu) hul
    refine hu'.congr (fun k f hk hf => ⟨by rw [hrefs]; exact hf, rfl, fun q' hq' => ?_⟩) fun v => by rw [hent]
    obtain ⟨-, hc⟩ := h.part_frame (part_map (hold p u hu) hul (hu'.pages_lt hk)) hf hq'
    cases hc
  · unfold Cow
    rw [hent, hrefs]
    exact h.cow

/-- The list of the threads and the bitmap of the pids may change. -/
theorem Sound.relist (h : Sound L s) (l : List Nat) (b : Bitmap) :
    Sound L { s with threadAllList := l, pidBitmap := b } := by
  have hent : entries L { s with threadAllList := l, pidBitmap := b } = entries L s := entries_congr rfl rfl
  have hrefs : refs L { s with threadAllList := l, pidBitmap := b } = refs L s := refs_congr rfl rfl
  refine ⟨?_, h.few, ⟨h.kernelBits.set, h.kernelBits.mapped⟩, h.room, h.top, h.live, h.mapped, h.main, h.own,
    fun p u hu hul => ?_, ?_, h.inUse⟩
  · unfold Frames
    rw [hent]
    exact h.frames.of_eq rfl rfl rfl
  · have hu' := h.user p u hu hul
    refine hu'.congr (fun k f hk hf => ⟨by rw [hrefs]; exact hf, rfl, fun q' hq' => ?_⟩) fun v => by rw [hent]
    obtain ⟨-, hc⟩ := h.part_frame (part_map hu hul (hu'.pages_lt hk)) hf hq'
    cases hc
  · unfold Cow
    rw [hent, hrefs]
    exact h.cow

/-- Pages that no process owns any more are gone. -/
theorem Unmapped.sound (h : Unmapped L s s₁ X) (hs : Sound L (s.setTask q none))
    (hX : ∀ p a v, X v → (s.setTask q none).part p a ≠ some v) :
    Sound L (s₁.setTask q none) := by
  have hent : entries L (s.setTask q none) = entries L s := entries_congr rfl rfl
  have hent₁ : entries L (s₁.setTask q none) = entries L s₁ := entries_congr rfl rfl
  have hsub : ∀ r w, entries L s₁ r = some w → entries L s r = some w := by
    intro r w hw
    rwa [← h.other r fun v hv he => by rw [he, h.gone v hv] at hw; cases hw]
  have heff : Effect L (s.setTask q none) (s₁.setTask q none) (fun _ => False) := by
    refine ⟨⟨⟨h.rest.kernelStart, h.rest.kernelSize, h.rest.userStart, h.rest.userSize⟩, ?_, h.rest.threadAllList,
      h.rest.pidBitmap, h.rest.cr3, h.rest.cur⟩, h.room, h.base, fun p a v f hp hf => ?_,
      fun p k v f _ _ _ => by rw [show (s₁.setTask q none).phys = s₁.phys from rfl, h.phys]; rfl,
      fun p v _ => ?_⟩
    · unfold Vm.setTask
      rw [h.rest.tasks]
    · unfold refs refsOf at hf ⊢
      rw [hent] at hf
      rwa [hent₁, h.other _ fun u hu he => hX p a v (by injection he with he; rwa [he]) hp]
    · rw [hent, hent₁, h.other _ fun u _ he => by cases he]
  refine hs.carry heff ?_ ⟨h.bits.set, h.bits.mapped⟩ (hs.cow.mono (fun p v w hw => ?_) fun r f hr => .inl ?_)
    fun _ _ hA => hA.elim
  · unfold Frames
    rw [hent₁]
    exact h.frames.of_eq rfl rfl rfl
  · rw [hent₁] at hw
    rw [hent]
    exact hsub _ w hw
  · obtain ⟨w, hw, hwf⟩ := refs_eq_some.1 hr
    rw [hent₁] at hw
    exact refs_eq_some.2 ⟨w, by rw [hent]; exact hsub r w hw, hwf⟩

/-- What a thread without a space owns is no directory in use. -/
theorem Sound.dead_part (h : Sound L s) (ht : s.tasks q = some t) (hl : t.live = false) {a : Part}
    (hp : s.part q a = some v) (hm : ¬ (q = mainThread ∧ a = .pcb)) :
    kHeapStart ≤ v ∧ ∃ f, refs L s (.kernel v) = some f ∧ ∀ p, L p ≠ some f := by
  obtain ⟨hv, f, hf⟩ := h.part_ref hp hm
  refine ⟨hv, f, hf, fun p hL => ?_⟩
  obtain ⟨rfl, -⟩ := h.part_frame hp hf hL
  obtain ⟨t', ht', hl', -⟩ := h.dir_ref hL
  rw [ht] at ht'
  cases ht'
  rw [hl] at hl'
  cases hl'

/-- The parts of a thread without a space: its `task_struct` and its directory. -/
theorem dead_parts (ht : s.tasks q = some t) (hl : t.live = false) {a : Part} (hp : s.part q a = some v) :
    (a = .pcb ∧ v = q) ∨ (a = .dir ∧ v = t.pgdir ∧ t.pgdir ≠ 0) := by
  unfold Vm.part at hp
  rw [ht] at hp
  cases a with
  | pcb =>
    cases hp
    exact .inl ⟨rfl, rfl⟩
  | dir =>
    simp only [Option.bind_some, TaskStruct.part] at hp
    split at hp
    · cases hp
    · rename_i hd
      cases hp
      exact .inr ⟨rfl, rfl, hd⟩
  | map k => simp [TaskStruct.part, hl] at hp

/-- `thread_exit` of a process that has ended, or of a thread of the kernel. -/
theorem Sound.threadExit (h : Sound L s) (ht : s.tasks q = some t) (hl : t.live = false) :
    runs (fun _ => False) (threadExit q) (fun _ s' => Sound L s' ∧ HasReaped L s s' q t) s := by
  unfold Memory.threadExit
  rw [runs_bind_ok (task_run ht)]
  -- the directory
  refine runs_seq (P := fun _ s₁ => Unmapped L s s₁ (fun u => t.pgdir ≠ 0 ∧ u = t.pgdir)) ?_ ?_
  · refine runs_when (fun hd => ?_) fun hd => (Unmapped.refl h).mono fun u => ⟨False.elim, fun hu => hd hu.1⟩
    obtain ⟨hv, f, hf, hn⟩ := h.dead_part ht hl (part_dir ht hd) fun hc => by cases hc.2
    refine runs_post ((Unmapped.refl h).free hv hf hn id) ?_
    rintro - s₁ h₁
    exact h₁.mono fun u => ⟨fun hu => ⟨hd, hu.resolve_left id⟩, fun hu => .inr hu.2⟩
  rintro - s₁ h₁
  rw [runs_change_bind]
  have h₂ : Unmapped L { s with threadAllList := s.threadAllList.erase q }
      { s₁ with threadAllList := s₁.threadAllList.erase q } (fun u => t.pgdir ≠ 0 ∧ u = t.pgdir) := by
    have hent₁ : entries L { s₁ with threadAllList := s₁.threadAllList.erase q } = entries L s₁ :=
      entries_congr rfl rfl
    have hent : entries L { s with threadAllList := s.threadAllList.erase q } = entries L s := entries_congr rfl rfl
    refine ⟨?_, ⟨h₁.bits.set, h₁.bits.mapped⟩, fun u hu => by rw [hent₁]; exact h₁.gone u hu,
      fun r hr => by rw [hent₁, hent]; exact h₁.other r hr, h₁.phys, h₁.room, h₁.base,
      ⟨⟨h₁.rest.kernelStart, h₁.rest.kernelSize, h₁.rest.userStart, h₁.rest.userSize⟩, h₁.rest.tasks,
        by rw [← h₁.rest.threadAllList], h₁.rest.pidBitmap, h₁.rest.cr3, h₁.rest.cur⟩⟩
    unfold Frames
    rw [hent₁]
    exact h₁.frames.of_eq rfl rfl rfl
  have hs₀ := h.relist (s.threadAllList.erase q) s.pidBitmap
  have ht₀ : ({ s with threadAllList := s.threadAllList.erase q } : Vm).tasks q = some t := ht
  -- the `task_struct`
  refine runs_seq (P := fun _ s₃ => Unmapped L { s with threadAllList := s.threadAllList.erase q } s₃
    (fun u => ∃ a, s.part q a = some u ∧ ¬ (q = mainThread ∧ a = .pcb))) ?_ ?_
  · have hsplit : ∀ u, (∃ a, s.part q a = some u ∧ ¬ (q = mainThread ∧ a = .pcb)) ↔
        (t.pgdir ≠ 0 ∧ u = t.pgdir) ∨ (q ≠ mainThread ∧ u = q) := by
      intro u
      constructor
      · rintro ⟨a, ha, hm⟩
        rcases dead_parts ht hl ha with ⟨rfl, rfl⟩ | ⟨rfl, rfl, hd⟩
        · exact .inr ⟨fun hc => hm ⟨hc, rfl⟩, rfl⟩
        · exact .inl ⟨hd, rfl⟩
      · rintro (⟨hd, rfl⟩ | ⟨hq, rfl⟩)
        · exact ⟨.dir, part_dir ht hd, fun hc => by cases hc.2⟩
        · exact ⟨.pcb, part_pcb ht, fun hc => hq hc.1⟩
    refine runs_when (fun hq => ?_) fun hq => h₂.mono fun u => ?_
    · obtain ⟨hv, f, hf, hn⟩ := h.dead_part ht hl (part_pcb ht) fun hc => hq hc.1
      refine runs_post (h₂.free hv (by rw [← hf]; exact congrFun (refs_congr rfl rfl) _) hn fun hX => ?_) ?_
      · obtain ⟨-, hc⟩ := h.own q q .pcb .dir q (part_pcb ht) (by rw [part_dir ht hX.1, ← hX.2])
        cases hc
      · rintro - s₃ h₃
        refine h₃.mono fun u => ?_
        rw [hsplit]
        constructor
        · rintro (hd | rfl)
          · exact .inl hd
          · exact .inr ⟨hq, rfl⟩
        · rintro (hd | ⟨-, rfl⟩)
          · exact .inl hd
          · exact .inr rfl
    · rw [hsplit]
      exact ⟨.inl, fun hu => hu.resolve_right fun hc => hq hc.1⟩
  rintro - s₃ h₃
  rw [runs_change_bind]
  unfold releasePid
  rw [runs_change]
  have hsound := h₃.sound (q := q) (hs₀.forget ht₀ hl) fun p a v hX hp => ?_
  · refine ⟨hsound.relist _ _, ⟨h₃.rest.kernelStart, h₃.rest.kernelSize, h₃.rest.userStart, h₃.rest.userSize⟩, ht, ?_,
      fun a v hp hq => ?_, fun r hr => ?_, h₃.phys, h₃.rest.threadAllList, h₃.rest.cur, h₃.rest.cr3⟩
    · show update s₃.tasks q none = _
      rw [h₃.rest.tasks]
    · rw [← h₃.gone v ⟨a, hp, fun hc => hq hc.1⟩]
      exact congrFun (entries_congr rfl rfl) _
    · have := h₃.other r fun v hv => by
        obtain ⟨a, ha, -⟩ := hv
        exact hr a v ha
      rw [show entries L s r = entries L { s with threadAllList := s.threadAllList.erase q } r from
        congrFun (entries_congr rfl rfl) r, ← this]
      exact congrFun (entries_congr rfl rfl) _
  · obtain ⟨b, hb, -⟩ := hX
    have hpq : p ≠ q := by
      rintro rfl
      unfold Vm.part at hp
      rw [show ({ s with threadAllList := s.threadAllList.erase p } : Vm).setTask p none = _ from rfl] at hp
      simp [Vm.setTask] at hp
    have hp' : s.part p a = some v := by
      unfold Vm.part at hp ⊢
      simpa [Vm.setTask, update_of_ne hpq] using hp
    exact hpq (h.own p q a b v hp' hb).1

/-! ## `sys_wait` -/

/-- A child that has ended. -/
theorem findHangingChild_spec {ppid : Int} (hf : s.findHangingChild ppid = some q) :
    ∃ t, s.tasks q = some t ∧ t.parentPid = ppid ∧ t.status = .hanging := by
  unfold Vm.findHangingChild at hf
  have := List.find?_some hf
  cases hq : s.tasks q with
  | none => simp [hq] at this
  | some t =>
    simp [hq] at this
    exact ⟨t, rfl, this.1, this.2⟩

theorem hanging_dead (h : t.status = .hanging) : t.live = false := by
  unfold TaskStruct.live
  rw [h]
  simp

/-- `sys_wait`: a child is reaped, or only the status of the caller changes. -/
theorem Sound.sysWait (h : Sound L s) (ht : s.tasks s.cur = some t) (hst : t.status ≠ .hanging) :
    runs (fun _ => False) sysWait (fun _ s' => Sound L s' ∧
      ((∃ q tc, s.findHangingChild t.pid = some q ∧ q ≠ s.cur ∧ tc.status = .hanging ∧ HasReaped L s s' q tc) ∨
        s.findHangingChild t.pid = none ∧ (s' = s ∨ s' = s.setTask s.cur (some { t with status := .waiting })))) s := by
  unfold Memory.sysWait
  rw [runs_read_bind, runs_bind_ok (task_run ht), runs_read_bind]
  cases hf : s.findHangingChild t.pid with
  | some q =>
    obtain ⟨tc, htc, -, hhang⟩ := findHangingChild_spec hf
    simp only
    rw [runs_bind_ok (task_run htc)]
    refine runs_seq (h.threadExit htc (hanging_dead hhang)) ?_
    rintro - s' ⟨hs', hr⟩
    refine ⟨hs', .inl ⟨q, tc, rfl, ?_, hhang, hr⟩⟩
    rintro rfl
    rw [ht] at htc
    cases htc
    exact hst hhang
  | none =>
    simp only
    rw [runs_read_bind]
    refine runs_ite (fun _ => ⟨h, .inr ⟨trivial, .inl rfl⟩⟩) fun _ => ?_
    rw [runs_change_bind, runs_pure]
    refine ⟨h.alike fun p => ?_, .inr ⟨trivial, .inr rfl⟩⟩
    by_cases hp : p = s.cur
    · rw [hp, update_self, ht]
      refine .some ⟨rfl, rfl, ?_, rfl, .inl rfl⟩
      unfold TaskStruct.live
      simp [hst]
    · rw [update_of_ne hp]
      exact rel_refl _

end

end Enix.Memory
