import Enix.Userprog.Loading

/-!
# `load` and the contents of the free frames

`load` takes pages that it does not clear. Whether it returns, and what it returns,
does not depend on what is left in them.

* `load_alike`: from two states that differ in the contents of the frames of the user
  pool only, the loader does the same.
-/
set_option autoImplicit false

namespace Enix.Userprog
open Enix.Core Enix.Kernel Enix.Memory Enix.Fs

/-- The files are the same, and the memory but for the contents of the user pool. -/
structure Twin (L : Spaces) (s₀ : Vm) (x x' : Whole) : Prop where
  sound : Sound L x.vm
  rest : Rest s₀ x.vm
  vm : Alike x.vm x'.vm
  mem : x'.mem = x.mem
  dev : x'.dev = x.dev

section
variable {α : Type} {L : Spaces} {s₀ s t₀ : Vm} {x x' : Whole} {t : TaskStruct} {pid : Pid} {fd : Int}
  {offset filesz vaddr count : Nat} {path : Str}

theorem Twin.onFs (h : Twin L s₀ x x') (k : K α) : Mirrors (Twin L s₀) (Userprog.onFs k) x x' := by
  intro a z he
  obtain ⟨s, d, hrun, rfl⟩ := onFs_eq_ok.1 he
  have hrun' : exec device k x'.mem x'.dev = .ok (a, s, d) := by
    rw [h.mem, h.dev]
    exact hrun
  exact ⟨_, onFs_run hrun', h.sound, h.rest, h.vm, rfl, rfl⟩

theorem Twin.onVm {m : M α} (h : Twin L s₀ x x') (hm : Mirrors Alike m x.vm x'.vm)
    (hpost : runs (fun _ => True) m (fun _ s' => Sound L s' ∧ Rest x.vm s') x.vm) :
    Mirrors (Twin L s₀) (Userprog.onVm m) x x' := by
  intro a z he
  obtain ⟨s, hrun, rfl⟩ := onVm_eq_ok.1 he
  obtain ⟨s', hrun', ha⟩ := hm a s hrun
  obtain ⟨hs, hr⟩ := runs_of_ok hpost hrun
  exact ⟨_, onVm_run hrun', hs, h.rest.trans hr, ha, h.mem, h.dev⟩

theorem occupyLoop_alike : ∀ (n v : Nat) {s t₀ : Vm}, Sound L s → s.tasks s.cur = some t → t.live = true →
    v < 0x100000 → Alike s t₀ → Mirrors Alike (occupyLoop n v) s t₀ := by
  intro n
  induction n with
  | zero => exact fun _ _ _ _ _ _ _ ha => Mirrors.pure ha true
  | succ n ih =>
    intro v s t₀ h ht hl hv ha
    have hnext : (v + 1) % 0x100000 < 0x100000 := Nat.mod_lt _ (by decide)
    have hap := h.frames.apart (h.inUse t ht hl)
    unfold occupyLoop
    refine Mirrors.readBind (ha.mapped hap) (Mirrors.ite (fun _ => ih _ h ht hl hnext ha) fun _ => ?_)
    refine Mirrors.bind (h.getAPage_alike ht hl hv ha) fun r s₁ t₁ hrun h₁ => ?_
    obtain ⟨rfl, hs₁, hg⟩ := runs_of_ok (h.getAPageUser ht hl hv) hrun
    exact ih _ hs₁ (by rw [hg.rest.tasks, hg.rest.cur]; exact ht) hl hnext h₁

theorem Twin.segmentLoad (h : Twin L s₀ x x') (ht : s₀.tasks s₀.cur = some t) (hl : t.live = true)
    (hv : vaddr < 4294967296) : Mirrors (Twin L s₀) (Userprog.segmentLoad pid fd offset filesz vaddr) x x' := by
  have htask : ∀ {z z' : Whole}, Twin L s₀ z z' → z.vm.tasks z.vm.cur = some t := fun hz => by
    rw [hz.rest.tasks, hz.rest.cur]
    exact ht
  have hpages : runs (fun _ => True) (occupyLoop (occupyPages vaddr filesz) (vaddr / 4096))
      (fun _ s' => Sound L s' ∧ Rest x.vm s') x.vm :=
    runs_post (Loading.occupyLoop (htask h) hl _ _ _ (by omega) (Loading.start h.sound)) fun _ _ hw => ⟨hw.sound, hw.rest⟩
  unfold Userprog.segmentLoad
  refine Mirrors.bind (h.onVm (occupyLoop_alike _ _ h.sound (htask h) hl (by omega) h.vm) hpages) fun ok x₁ x₁' _ h₁ => ?_
  refine Mirrors.ite (fun _ => ?_) fun _ => Mirrors.pure h₁ _
  unfold seekTo
  rw [bind_assoc]
  refine Mirrors.bind (h₁.onFs _) fun _ x₂ x₂' _ h₂ => ?_
  rw [pure_bind]
  unfold readInto
  rw [bind_assoc]
  refine Mirrors.bind (h₂.onFs _) fun r x₃ x₃' _ h₃ => ?_
  rw [bind_assoc]
  refine Mirrors.guardBind fun hend => ?_
  have hL := h₃.sound.inUse t (htask h₃) hl
  have hlen : vaddr + (slice r.2 0 r.1.toNat).length ≤ 4096 * kernelBase := by
    rw [length_slice]
    exact hend
  have hboth := runs_both (memcpyUser_spec _ vaddr x₃.vm h₃.sound hL hlen) (memcpyUser_phys (slice r.2 0 r.1.toNat) vaddr x₃.vm)
  have hcopy : runs (fun _ => True) (memcpyUser vaddr (slice r.2 0 r.1.toNat)) (fun _ s' => Sound L s' ∧ Rest x₃.vm s')
      x₃.vm := by
    refine runs_mono hboth (fun _ _ => trivial) ?_
    rintro _ s' ⟨hc, hs'⟩
    refine ⟨hc.sound, ?_⟩
    rw [hs']
    exact ⟨⟨rfl, rfl, rfl, rfl⟩, rfl, rfl, rfl, rfl, rfl⟩
  exact Mirrors.bind (h₃.onVm (h₃.sound.memcpyUser_alike _ _ hL hlen h₃.vm) hcopy) fun _ _ _ _ h₄ => Mirrors.pure h₄ _

theorem Twin.loadHeaders (ht : s₀.tasks s₀.cur = some t) (hl : t.live = true) (size : Nat) : ∀ (n off : Nat) {x x' : Whole},
    Twin L s₀ x x' → Mirrors (Twin L s₀) (Userprog.loadHeaders pid fd size n off) x x' := by
  intro n
  induction n with
  | zero => exact fun _ _ _ h => Mirrors.pure h true
  | succ n ih =>
    intro off x x' h
    unfold Userprog.loadHeaders seekTo
    rw [bind_assoc]
    refine Mirrors.bind (h.onFs _) fun _ x₁ x₁' _ h₁ => ?_
    rw [pure_bind]
    refine Mirrors.bind (h₁.onFs _) fun r x₂ x₂' _ h₂ => ?_
    refine Mirrors.ite (fun _ => Mirrors.pure h₂ false) fun _ => Mirrors.ite (fun _ => ?_) fun _ => ih _ h₂
    refine Mirrors.bind (h₂.segmentLoad ht hl (le32_lt _ _)) fun ok x₃ x₃' _ h₃ => ?_
    exact Mirrors.ite (fun _ => ih _ h₃) fun _ => Mirrors.pure h₃ false

end

end Enix.Userprog
