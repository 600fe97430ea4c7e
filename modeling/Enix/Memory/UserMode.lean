import Enix.Memory.Start

/-!
# What a process reads

`image L s p v` is what process `p` reads from page `v`.

* `Sound.userLoad`, `Sound.userStore`: user code reads its image, and a store
  changes one byte of it and no other process's image.
* `*.image`: what the calls do to the images.
-/
set_option autoImplicit false

namespace Enix.Memory
open Enix.Core Enix.Kernel Function

/-- The contents of page `v` of process `p`. -/
def image (L : Spaces) (s : Vm) (p v : Nat) : Option Bytes := (refs L s (.pte p v)).map s.phys

/-- The images of all processes. -/
def SameImages (L L' : Spaces) (s s' : Vm) : Prop := ∀ p v, image L' s' p v = image L s p v

/-- Byte `a` of process `p` has become `x`. -/
structure Wrote (L : Spaces) (s s' : Vm) (p a : Nat) (x : UInt8) : Prop where
  own : ∃ b, image L s p (a / 4096) = some b ∧ image L s' p (a / 4096) = some (update b (a % 4096) x)
  same : ∀ v, v ≠ a / 4096 → image L s' p v = image L s p v
  others : ∀ q v, q ≠ p → image L s' q v = image L s q v

section
variable {L L' : Spaces} {s s₁ s' : Vm} {t tc : TaskStruct} {name : List UInt8}
  {a c d f g n p q v w : Nat} {x : UInt8}

theorem image_eq_some {b : Bytes} : image L s p v = some b ↔ ∃ f, refs L s (.pte p v) = some f ∧ s.phys f = b := by
  unfold image
  simp

theorem image_eq_none : image L s p v = none ↔ refs L s (.pte p v) = none := by
  unfold image
  simp

/-- Pages on the same frames, with the same contents. -/
theorem image_congr (hr : refs L' s' (.pte q w) = refs L s (.pte p v))
    (hp : ∀ f, refs L s (.pte p v) = some f → s'.phys f = s.phys f) : image L' s' q w = image L s p v := by
  unfold image
  rw [hr]
  cases hf : refs L s (.pte p v) with
  | none => rfl
  | some f => rw [Option.map_some, Option.map_some, hp f hf]

theorem refs_of_entries {r r' : Ref} (h : entries L' s' r' = entries L s r) : refs L' s' r' = refs L s r := by
  unfold refs refsOf
  rw [h]

/-! ## Loads and stores -/

/-- A page that is there may be read by user code. -/
theorem Sound.mayLoad (h : Sound L s) (hL : L p = some s.cr3) (hr : refs L s (.pte p v) = some f) :
    s.mayLoad v = true := by
  have hv := page_lt hL hr
  obtain ⟨w, hw, -⟩ := refs_eq_some.1 hr
  have hpt := (entries_pte_user hL hv).1 hw
  have hpd := (entries_pde_user hL hv).2 ⟨hpt.1, rfl⟩
  have hfl : s.pte v % 4096 = pgRw ∨ s.pte v % 4096 = pgRo := by
    rw [hpt.2.2]
    exact h.frames.flags _ w hw
  have hfd : s.pde v % 4096 = pgRw := h.frames.flags _ _ hpd
  unfold Vm.mayLoad
  rw [hpt.1, hpt.2.1]
  unfold userAccess
  unfold pgRw pgRo at hfl
  unfold pgRw at hfd
  simp only [Bool.true_and, Bool.and_true, Bool.and_eq_true, decide_eq_true_eq]
  omega

/-- What a process reads is its image. -/
theorem Sound.userLoad (h : Sound L s) (hL : L p = some s.cr3) (ha : a / 4096 < kernelBase) :
    userLoad a s = match image L s p (a / 4096) with
      | some b => .ok (b (a % 4096), s)
      | none => .error .fault := by
  unfold Memory.userLoad loadByte
  cases hr : refs L s (.pte p (a / 4096)) with
  | none =>
    rw [image_eq_none.2 hr]
    have hload : ¬ s.mayLoad (a / 4096) = true := by
      intro hl
      unfold Vm.mayLoad at hl
      simp only [Bool.and_eq_true] at hl
      rw [refs_eq_none] at hr
      have := (entries_pte_user hL ha).2 ⟨hl.1.1.1, hl.1.2, rfl⟩
      rw [hr] at this
      cases this
    rw [bind_ok (read_run _ s), bind_error (guard_stop hload _ s)]
  | some f =>
    rw [image_eq_some.2 ⟨f, hr, rfl⟩, bind_ok (read_run _ s), bind_ok (guard_run (h.mayLoad hL hr) _ s),
      bind_ok (read_run _ s), walk_user hL ha, hr]
    rfl

/-- The contents of a page of a process are no matter of the invariant. -/
theorem Sound.setPage (h : Sound L s) (hr : refs L s (.pte p v) = some f) (b : Bytes) : Sound L (s.setPhys f b) := by
  have hst := Stored.setPhys (h.frames.plain_page hr) b
  have he : Effect L s (s.setPhys f b) (fun _ => False) := by
    refine ⟨hst.rest, rfl, rfl, fun p a v g _ hg => by rw [hst.refs]; exact hg, fun q k u g _ hq hg => ?_,
      fun q u _ => by rw [hst.entries]⟩
    refine phys_setPhys_ne ?_
    rintro rfl
    obtain ⟨q', hc⟩ := h.frames.ok.page_only h.frames.pooled_base hr hg
    cases hc
  refine h.carry he (hst.frames h.frames) (hst.bits h.kernelBits) ?_ fun _ _ hA => hA.elim
  unfold Cow
  rw [hst.entries, hst.refs]
  exact h.cow

theorem refs_setPage (h : Sound L s) (hr : refs L s (.pte p v) = some f) (b : Bytes) :
    refs L (s.setPhys f b) = refs L s := (Stored.setPhys (h.frames.plain_page hr) b).refs

/-- A store of the kernel to a page of the running process. -/
theorem Sound.storeByte (h : Sound L s) (hL : L p = some s.cr3) (hr : refs L s (.pte p (a / 4096)) = some f)
    (x : UInt8) : storeByte a x s = .ok ((), s.setPhys f (update (s.phys f) (a % 4096) x)) ∧
      Sound L (s.setPhys f (update (s.phys f) (a % 4096) x)) := by
  refine ⟨?_, h.setPage hr _⟩
  unfold Memory.storeByte
  rw [bind_ok (read_run _ s), walk_user hL (page_lt hL hr), hr]
  rfl

/-- A page that may be stored to is on a frame of its own. -/
theorem Sound.mayStore (h : Sound L s) (hL : L p = some s.cr3) (hv : v < kernelBase) :
    s.mayStore v = true ↔ ∃ w, entries L s (.pte p v) = some w ∧ writable w = true := by
  constructor
  · intro hm
    unfold Vm.mayStore at hm
    simp only [Bool.and_eq_true] at hm
    obtain ⟨⟨⟨⟨⟨hpd, -⟩, -⟩, hpt⟩, hw⟩, -⟩ := hm
    exact ⟨_, (entries_pte_user hL hv).2 ⟨hpd, hpt, rfl⟩, hw⟩
  · rintro ⟨w, hw, hwr⟩
    have hpt := (entries_pte_user hL hv).1 hw
    have hpd := (entries_pde_user hL hv).2 ⟨hpt.1, rfl⟩
    have hfl : s.pte v % 4096 = pgRw ∨ s.pte v % 4096 = pgRo := by
      rw [hpt.2.2]
      exact h.frames.flags _ w hw
    have hfd : s.pde v % 4096 = pgRw := h.frames.flags _ _ hpd
    unfold Vm.mayStore
    rw [hpt.1, hpt.2.1, hpt.2.2, hwr]
    rw [hpt.2.2] at hfl
    unfold userAccess writable
    unfold pgRw pgRo at hfl
    unfold pgRw at hfd
    simp only [Bool.true_and, Bool.and_true, Bool.and_eq_true, decide_eq_true_eq]
    omega

/-- A store to a page of its own changes one byte. -/
theorem Sound.wrote (h : Sound L s) {w₀ : Nat} (hw : entries L s (.pte p (a / 4096)) = some w₀)
    (hwr : writable w₀ = true) (x : UInt8) :
    Wrote L s (s.setPhys (w₀ / 4096) (update (s.phys (w₀ / 4096)) (a % 4096) x)) p a x := by
  have hr : refs L s (.pte p (a / 4096)) = some (w₀ / 4096) := refs_eq_some.2 ⟨w₀, hw, rfl⟩
  have hrefs := refs_setPage h hr (update (s.phys (w₀ / 4096)) (a % 4096) x)
  have hother : ∀ q v, (q ≠ p ∨ v ≠ a / 4096) →
      image L (s.setPhys (w₀ / 4096) (update (s.phys (w₀ / 4096)) (a % 4096) x)) q v = image L s q v := by
    intro q v hq
    refine image_congr (by rw [hrefs]) fun g hg => phys_setPhys_ne ?_
    rintro rfl
    have hc := h.cow p _ w₀ hw hwr _ hg
    injection hc with hqp hva
    rcases hq with hq | hq
    · exact hq hqp
    · exact hq hva
  refine ⟨⟨s.phys (w₀ / 4096), image_eq_some.2 ⟨_, hr, rfl⟩, image_eq_some.2 ⟨w₀ / 4096, ?_, phys_setPhys_self⟩⟩,
    fun v hv => hother p v (.inr hv), fun q v hq => hother q v (.inl hq)⟩
  rw [hrefs]
  exact hr

/-! ## Images and calls -/

/-- A page fault is not seen by anyone. -/
theorem Unshared.images (hu : Unshared L s s' p v f) (h : Sound L s) (hr : refs L s (.pte p v) = some f) :
    SameImages L L s s' := by
  intro q u
  have hph : ∀ g, refs L s (.pte q u) = some g → s'.phys g = s.phys g := fun g hg =>
    hu.phys g _ hg (h.frames.plain_page hg)
  by_cases hq : q = p
  · subst hq
    by_cases huv : u = v
    · subst huv
      obtain ⟨g, hg, hgp, -⟩ := hu.moved
      rw [image_eq_some.2 ⟨f, hr, rfl⟩]
      exact image_eq_some.2 ⟨g, refs_eq_some.2 ⟨_, hg, frame_pgRw g⟩, hgp⟩
    · exact image_congr (refs_of_entries (hu.other u huv)) hph
  · exact image_congr (refs_of_entries (hu.page q u hq)) hph

/-- The handler of a refused store. -/
theorem Sound.pageFault {B : Prop} (h : Sound L s) (ht : s.tasks s.cur = some t) (hl : t.live = true)
    (hv : v < kernelBase) (hB : B → Has s.tasks 2 0 1 0 s) :
    runs (fun x => OutOfMemory x ∧ ¬ B ∨ x = .fault ∧ refs L s (.pte s.cur v) = none) (pageFault v) (fun _ s' => ∃ f, refs L s (.pte s.cur v) = some f ∧
      Sound L s' ∧ Unshared L s s' s.cur v f) s := by
  have hL := h.inUse t ht hl
  unfold Memory.pageFault
  rw [runs_read_bind]
  cases hr : refs L s (.pte s.cur v) with
  | none =>
    rw [walk_user hL hv, hr, if_pos rfl]
    exact .inr ⟨rfl, rfl⟩
  | some f =>
    rw [walk_user hL hv, hr, if_neg (by simp)]
    exact runs_mono (h.doWpPage ht hl hr hB) (fun _ => .inl) fun _ s' hq => ⟨f, rfl, hq⟩

/-- A store of user code. -/
theorem Sound.userStore {B : Prop} (h : Sound L s) (ht : s.tasks s.cur = some t) (hl : t.live = true)
    (ha : a / 4096 < kernelBase) (x : UInt8) (hB : B → Has s.tasks 2 0 1 0 s) :
    runs (fun e => OutOfMemory e ∧ ¬ B ∨ e = .fault ∧ refs L s (.pte s.cur (a / 4096)) = none) (userStore a x) (fun _ s' => Sound L s' ∧
      Wrote L s s' s.cur a x ∧ ∃ f s₁, refs L s (.pte s.cur (a / 4096)) = some f ∧
        (s₁ = s ∨ Unshared L s s₁ s.cur (a / 4096) f) ∧
        ∃ g, s' = s₁.setPhys g (update (s₁.phys g) (a % 4096) x) ∧
          entries L s₁ (.pte s.cur (a / 4096)) = some (g * 4096 + pgRw)) s := by
  have hL := h.inUse t ht hl
  unfold Memory.userStore
  rw [runs_read_bind]
  refine runs_ite (fun hm => ?_) fun hm => ?_
  · obtain ⟨w, hw, hwr⟩ := (h.mayStore hL ha).1 hm
    have hr : refs L s (.pte s.cur (a / 4096)) = some (w / 4096) := refs_eq_some.2 ⟨w, hw, rfl⟩
    obtain ⟨hrun, hs'⟩ := h.storeByte hL hr x
    rw [runs_ok hrun]
    refine ⟨hs', h.wrote hw hwr x, w / 4096, s, hr, .inl rfl, w / 4096, rfl, ?_⟩
    rw [hw]
    have hfl : w % 4096 = pgRw ∨ w % 4096 = pgRo := h.frames.flags _ w hw
    unfold writable at hwr
    unfold pgRw pgRo at hfl
    unfold pgRw
    congr 1
    simp only [decide_eq_true_eq] at hwr
    omega
  · refine runs_seq (h.pageFault ht hl ha hB) ?_
    rintro - s₁ ⟨f, hr, h₁, hu⟩
    obtain ⟨g, hg, -, -⟩ := hu.moved
    have hL₁ : L s.cur = some s₁.cr3 := by rw [hu.rest.cr3]; exact hL
    have hwr : writable (g * 4096 + pgRw) = true := by
      unfold writable pgRw
      simp only [decide_eq_true_eq]
      omega
    have hm₁ : s₁.mayStore (a / 4096) = true := (h₁.mayStore hL₁ ha).2 ⟨_, hg, hwr⟩
    rw [runs_bind_ok (read_run _ s₁), runs_bind_ok (guard_run hm₁ _ s₁)]
    have hr₁ : refs L s₁ (.pte s.cur (a / 4096)) = some g := refs_eq_some.2 ⟨_, hg, frame_pgRw g⟩
    obtain ⟨hrun, hs'⟩ := h₁.storeByte hL₁ hr₁ x
    rw [runs_ok hrun]
    have hw := h₁.wrote hg hwr x
    rw [frame_pgRw] at hw
    have himg := hu.images h hr
    refine ⟨hs', ⟨?_, fun v hv => (hw.same v hv).trans (himg _ v), fun q v hq => (hw.others q v hq).trans (himg q v)⟩,
      f, s₁, hr, .inr hu, g, rfl, hg⟩
    obtain ⟨b, hb, hb'⟩ := hw.own
    exact ⟨b, by rw [← himg]; exact hb, hb'⟩

/-- The child reads what its parent reads, the others read what they did. -/
theorem HasForked.images (hf : HasForked L s s' p c d t tc) (h : Sound L s) :
    ∀ q v, image (update L c (some d)) s' q v = if q = c then image L s p v else image L s q v := by
  have hro : ∀ {q v}, entries (update L c (some d)) s' (.pte q v) = (refs L s (.pte p v)).map (· * 4096 + pgRo) →
      refs (update L c (some d)) s' (.pte q v) = refs L s (.pte p v) := by
    intro q v he
    show refsOf (entries (update L c (some d)) s') (.pte q v) = _
    unfold refsOf
    rw [he]
    cases refs L s (.pte p v) with
    | none => rfl
    | some g => simp
  have hph : ∀ {q v} g, refs L s (.pte q v) = some g → s'.phys g = s.phys g := fun g hg =>
    hf.phys g _ hg (h.frames.plain_page hg)
  intro q v
  by_cases hqc : q = c
  · rw [if_pos hqc, hqc]
    exact image_congr (hro (hf.child v)) hph
  · rw [if_neg hqc]
    by_cases hqp : q = p
    · rw [hqp]
      exact image_congr (hro (hf.parent v)) hph
    · exact image_congr (refs_of_entries (hf.page q v hqp hqc)) hph

/-- A process that is not there reads nothing. -/
theorem image_dead (hL : L p = none) : image L s p v = none :=
  image_eq_none.2 (refs_eq_none.2 (entries_dead (i := 0) hL).2)

/-- A process that has exited reads nothing, the others read what they did. -/
theorem HasExited.images (hx : HasExited L s s' p t) :
    ∀ q v, image (update L p none) s' q v = if q = p then none else image L s q v := by
  intro q v
  by_cases hq : q = p
  · rw [if_pos hq, hq]
    exact image_dead (update_self ..)
  · rw [if_neg hq]
    exact image_congr (refs_of_entries (hx.page q v hq)) fun f _ => by rw [hx.phys]

theorem HasReaped.images (hr : HasReaped L s s' q t) : SameImages L L s s' := fun p v =>
  image_congr (refs_of_entries (hr.other _ fun _ _ _ he => by cases he)) fun f _ => by rw [hr.phys]

theorem HasExecuted.images (he : HasExecuted L s s' c d name tc) : SameImages L (update L c (some d)) s s' :=
  fun p v => image_congr (refs_of_entries (he.page p v)) fun f hf => he.phys f _ hf

end

end Enix.Memory
