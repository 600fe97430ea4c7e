import Enix.Core.Mirror
import Enix.Memory.KernelStore

/-!
# What is left in the free frames

`get_a_page` does not clear the page that it maps: a process reads there what the
last owner of the frame has left. `Vm.refill` are the states that differ from a
given one in the contents of the free frames of the user pool.

* `Sound.refill`: the books are the same for all of them.
* `Sound.getAPage_spare`: the call changes no free frame of the user pool.
* `Sound.getAPage_alike`, `Sound.memcpyUser_alike`: from two states that differ in the
  contents of the user pool the calls do the same.
-/
set_option autoImplicit false

namespace Enix.Memory
open Enix.Core Enix.Kernel Function

/-- Frame `f` of the user pool is free. -/
def Vm.spare (s : Vm) (f : Nat) : Prop := s.Holds .user f ∧ s.frameBit f = false

instance (s : Vm) (f : Nat) : Decidable (s.spare f) :=
  inferInstanceAs (Decidable ((_ ∧ _) ∧ _))

/-- The free frames of the user pool hold `b`. -/
def Vm.refill (s : Vm) (b : Nat → Bytes) : Vm := { s with phys := fun f => if s.spare f then b f else s.phys f }

section
variable {L : Spaces} {s s' : Vm} {t : TaskStruct} {b : Nat → Bytes} {f g p v flag : Nat}

theorem refill_taken (h : ¬ s.spare f) : (s.refill b).phys f = s.phys f := if_neg h

/-- A frame that is referred to is not free. -/
theorem Sound.not_spare (h : Sound L s) {r : Ref} (hr : refs L s r = some f) : ¬ s.spare f := fun hs =>
  h.frames.unused (fun _ => le_refl 0) (Vm.holds_pooled hs.1) hs.2 r hr

theorem Sound.dir_not_spare (h : Sound L s) (hL : L p = some f) : ¬ s.spare f := by
  obtain ⟨t, -, -, -, hd⟩ := h.dir_ref hL
  exact h.not_spare hd

/-- The pages of the processes are what keeps a frame of the user pool. -/
theorem Sound.spare_iff (h : Sound L s) : s.spare f ↔ s.Holds .user f ∧ ∀ p v, refs L s (.pte p v) ≠ some f := by
  refine ⟨fun hs => ⟨hs.1, fun p v hr => h.not_spare hr hs⟩, fun ⟨hf, hno⟩ => ⟨hf, ?_⟩⟩
  have hpo := h.frames.poolOf hf
  have hkernel : ¬ s.Holds .kernel f := fun hk => by
    rw [h.frames.poolOf hk] at hpo
    cases hpo
  have hpool := Vm.holds_pooled hf
  have hun : ∀ r, refs L s r ≠ some f := by
    intro r hr
    have hhome := h.frames.ok.home r f hr
    cases r with
    | kernel v =>
      by_cases hv : v < kHeapStart
      · have hlt : f < memBase := by simpa only [Home, if_pos hv] using hhome
        exact absurd (h.frames.range hpool).1 (by omega)
      · exact hkernel ((home_kernel (Nat.not_lt.1 hv)).1 hhome)
    | pde p i => exact hkernel hhome
    | pte p v => exact hno p v hr
  have hbal := h.frames.bal f hpool
  rw [(refCount_eq_zero h.frames.ok.fin).2 hun] at hbal
  have hzero : s.mem f = 0 := by
    have hq : (quits f : Int) = 0 := rfl
    omega
  cases hb : s.frameBit f with
  | false => rfl
  | true =>
    have hpos := (h.frames.bits f hpool).1 hb
    omega

/-- Only directories and page tables matter to the entries. -/
theorem entries_of_phys (hd : ∀ p d, L p = some d → s'.phys d = s.phys d)
    (ht : ∀ p i f, refs L s (.pde p i) = some f → s'.phys f = s.phys f) (hk : s'.kernelPte = s.kernelPte) :
    entries L s' = entries L s := by
  funext r
  cases r with
  | kernel v =>
    unfold entries
    rw [hk]
  | pde p i =>
    cases hL : L p with
    | none => rw [(entries_dead (v := 0) hL).1, (entries_dead (v := 0) hL).1]
    | some d =>
      have hpde : pdeAt s'.phys d i = pdeAt s.phys d i := by
        unfold pdeAt
        rw [hd p d hL]
      simp only [entries, hL, Option.bind_some, hpde]
  | pte p v =>
    cases hL : L p with
    | none => rw [(entries_dead (i := 0) hL).2, (entries_dead (i := 0) hL).2]
    | some d =>
      have hpde : pdeAt s'.phys d (v / 1024) = pdeAt s.phys d (v / 1024) := by
        unfold pdeAt
        rw [hd p d hL]
      simp only [entries, hL, Option.bind_some, hpde]
      by_cases hv : v < kernelBase ∧ present (pdeAt s.phys d (v / 1024)) = true
      · have hi : v / 1024 < 768 := by
          have hlt := hv.1
          unfold kernelBase at hlt
          omega
        have htab := ht p (v / 1024) _ (refs_eq_some.2 ⟨_, (entries_pde hL).2 ⟨hi, hv.2, rfl⟩, rfl⟩)
        have hpte : pteAt s'.phys d v = pteAt s.phys d v := by
          unfold pteAt
          rw [hpde, htab]
        rw [if_pos hv, if_pos hv, hpte]
      · rw [if_neg hv, if_neg hv]

/-- What the free frames hold is no matter of the entries. -/
theorem Sound.refill_stored (h : Sound L s) (b : Nat → Bytes) : Stored L s (s.refill b) :=
  ⟨rfl, entries_of_phys (fun _ _ hL => refill_taken (h.dir_not_spare hL))
    (fun _ _ _ hr => refill_taken (h.not_spare hr)) rfl⟩

theorem Sound.refill (h : Sound L s) (b : Nat → Bytes) : Sound L (s.refill b) := by
  have hst := h.refill_stored b
  have he : Effect L s (s.refill b) (fun _ => False) := by
    refine ⟨hst.rest, rfl, rfl, fun p a u g _ hg => ?_, fun q k u g _ _ hg => ?_, fun q u _ => ?_⟩
    · rw [hst.refs]
      exact hg
    · exact refill_taken (h.not_spare hg)
    · rw [hst.entries]
  refine h.carry he (hst.frames h.frames) (hst.bits h.kernelBits) ?_ fun _ _ hA => hA.elim
  unfold Cow
  rw [hst.entries, hst.refs]
  exact h.cow

/-- `page_table_add` writes to the directory, the page table, and a frame of the kernel pool. -/
theorem pageTableAdd_phys {due : Nat → Int} (h : Frames L due s) (hd : ∀ f, 0 ≤ due f) (hL : L p = some s.cr3)
    (hv : v < kernelBase) :
    runs (fun _ => True) (pageTableAdd v f flag) (fun _ s' => ∀ g, g ≠ s.cr3 → ¬ s.Holds .kernel g →
      (present (s.pde v) = true → g ≠ s.pde v / 4096) → s'.phys g = s.phys g) s := by
  unfold pageTableAdd
  rw [runs_read_bind]
  by_cases hp : present (s.pde v) = true
  · rw [if_pos hp, runs_read_bind]
    refine runs_guard_bind (fun _ => trivial) fun _ => ?_
    rw [runs_change]
    intro g _ _ hg
    exact phys_setPte_user hv (hg hp)
  · rw [if_neg hp]
    refine runs_seq (runs_mono (palloc_spec h) (fun _ _ => trivial) fun _ _ hq => hq) ?_
    rintro _ _ ⟨k, rfl, hk, hbit, -, rfl⟩
    have hsame := Vm.SameRest.claim s k
    have hkd : s.cr3 ≠ k := fun he => (h.plain_fresh (h.unused hd (.inl hk) hbit)).1 p (he ▸ hL)
    have hword : k * 4096 + pgRw < 4294967296 := word_lt (h.range (.inl hk)).2 (by decide)
    -- the new table is where the directory says, before and after it is cleared
    have hpde : ((s.claim k).setPde v (k * 4096 + pgRw)).pde v / 4096 = k := by
      rw [pde_user hv]
      unfold Vm.setPde pdeAt
      rw [show ((s.claim k).setPhys (s.claim k).cr3
        (putWord ((s.claim k).phys (s.claim k).cr3) (4 * (v / 1024)) (k * 4096 + pgRw))).cr3 =
          (s.claim k).cr3 from rfl, phys_setPhys_self, le32_putWord_self hword, frame_pgRw]
    have hpde' : (((s.claim k).setPde v (k * 4096 + pgRw)).setPhys k zeros).pde v / 4096 = k := by
      rw [pde_user hv, pdeAt_setPhys (by show (s.claim k).cr3 ≠ k; rw [hsame.cr3]; exact hkd)]
      show pdeAt _ ((s.claim k).setPde v (k * 4096 + pgRw)).cr3 _ / 4096 = k
      rw [← pde_user hv, hpde]
    simp only [Option.getD_some, runs_change_bind]
    rw [hpde, runs_read_bind]
    refine runs_guard_bind (fun _ => trivial) fun _ => ?_
    rw [runs_change]
    intro g hg hgk _
    have hne : g ≠ k := fun he => hgk (he ▸ hk)
    rw [phys_setPte_user hv (by rw [hpde']; exact hne), phys_setPhys_ne hne]
    unfold Vm.setPde
    rw [hsame.cr3, phys_setPhys_ne hg, hsame.phys]

/-- The frame that `get_a_page` takes keeps its contents, and so do those that stay free. -/
theorem Sound.getAPage_spare (h : Sound L s) (ht : s.tasks s.cur = some t) (hl : t.live = true) (hv : v < 0x100000) :
    runs (fun _ => True) (Memory.getAPage .user v) (fun _ s' => ∀ g, s.spare g → s'.phys g = s.phys g) s := by
  have hL := h.inUse t ht hl
  have hu := h.user _ t ht hl
  unfold Memory.getAPage reservePage
  rw [runs_bind, runs_bind_ok (runningThread_run rfl ht), if_pos ⟨TaskStruct.live_pgdir hl, rfl⟩, hu.start]
  have hrange : bitIdx v userVaddrStart < 8 * userBtmpLen → v = userVaddrStart + bitIdx v userVaddrStart ∧
    v < kernelBase := bitIdx_user hv
  generalize bitIdx v userVaddrStart = i at *
  refine runs_guard_bind (fun _ => trivial) fun _ => ?_
  refine runs_guard_bind (fun _ => trivial) fun hi => ?_
  rw [hu.len] at hi
  have hvk := (hrange hi).2
  refine runs_mono (setBtmp_spec h.frames hu.toBtmpOk (by rw [hu.len]; omega)) (fun _ hE => hE.elim) ?_
  intro _ s₁ hb
  have hf₁ := hb.frames h.frames
  refine runs_seq (runs_mono (palloc_spec hf₁) (fun _ _ => trivial) fun _ _ hq => hq) ?_
  rintro _ _ ⟨f, rfl, hf, hbit, hcell, rfl⟩
  have hsame := Vm.SameRest.claim s₁ f
  have hent : entries L (s₁.claim f) = entries L s := entries_claim.trans hb.entries
  have hL₂ : L s.cur = some (s₁.claim f).cr3 := by rw [hsame.cr3, hb.rest.cr3]; exact hL
  have hf₂ : Frames L (owing quits f 1) (s₁.claim f) := by
    unfold Frames
    rw [entries_claim]
    exact hf₁.claim (Vm.holds_pooled hf) hbit hcell
  have hdue : ∀ g, 0 ≤ owing quits f 1 g := fun g => by
    have hq : 0 ≤ quits g := le_refl 0
    unfold owing
    split
    · omega
    · omega
  simp only
  refine runs_seq (runs_mono (pageTableAdd_phys hf₂ hdue hL₂ hvk) (fun _ _ => trivial) fun _ _ hq => hq) ?_
  intro _ s' hph
  rw [runs_pure]
  intro g hg
  have hholds : (s₁.claim f).Holds = s.Holds := by
    funext pf
    rw [(Vm.SamePools.claim s₁ f).holds, hb.rest.holds]
  rw [hph g ?_ ?_ ?_, hsame.phys]
  · exact hb.phys g fun k _ hk => h.not_spare hk hg
  · rintro rfl
    exact h.dir_not_spare hL₂ hg
  · rw [hholds]
    intro hk
    have hku := (h.frames.poolOf hk).symm.trans (h.frames.poolOf hg.1)
    cases hku
  · intro hp he
    refine h.not_spare (r := .pde s.cur (v / 1024)) (refs_eq_some.2 ⟨_, ?_, he.symm⟩) hg
    rw [← hent]
    exact (entries_pde_user hL₂ hvk).2 ⟨hp, rfl⟩

/-! ## The contents of the user pool have no influence -/

/-- `t` is `s`, but for the contents of the frames of the user pool. -/
structure Alike (s t : Vm) : Prop where
  eq : t = { s with phys := t.phys }
  phys : ∀ f, ¬ s.Holds .user f → t.phys f = s.phys f

section
variable {t₀ : Vm}

theorem Alike.of_eq {s₁ t₁ : Vm} (h : Alike s t₀) (hp : s₁.phys = s.phys) (ht : t₁ = { s₁ with phys := t₀.phys })
    (hh : s₁.Holds .user = s.Holds .user) : Alike s₁ t₁ := by
  refine ⟨by rw [ht], fun f hf => ?_⟩
  rw [hh] at hf
  rw [ht, hp]
  exact h.phys f hf

theorem Alike.setPhys {b' c : Bytes} (h : Alike s t₀) (hb : ¬ s.Holds .user f → b' = c) :
    Alike (s.setPhys f c) (t₀.setPhys f b') := by
  refine ⟨?_, fun g hg => ?_⟩
  · rw [h.eq]
    rfl
  · by_cases hgf : g = f
    · rw [hgf, phys_setPhys_self, phys_setPhys_self]
      exact hb (hgf ▸ hg)
    · rw [phys_setPhys_ne hgf, phys_setPhys_ne hgf]
      exact h.phys g hg

theorem Alike.pde (h : Alike s t₀) (hd : ¬ s.Holds .user s.cr3) : t₀.pde v = s.pde v := by
  have hcr3 : t₀.cr3 = s.cr3 := by rw [h.eq]
  unfold Vm.pde
  rw [hcr3, h.phys _ hd]

theorem Alike.pte (h : Alike s t₀) (hd : ¬ s.Holds .user s.cr3) (ht : v < kernelBase → ¬ s.Holds .user (s.pde v / 4096)) :
    t₀.pte v = s.pte v := by
  have hk : t₀.kernelPte = s.kernelPte := by rw [h.eq]
  unfold Vm.pte
  rw [h.pde hd, hk]
  by_cases hv : v < kernelBase
  · rw [if_pos hv, if_pos hv, h.phys _ (ht hv)]
  · rw [if_neg hv, if_neg hv]

/-- The directory and the page tables are in the kernel pool. -/
structure TablesApart (s : Vm) : Prop where
  dir : ¬ s.Holds .user s.cr3
  table : ∀ v, v < kernelBase → present (s.pde v) = true → ¬ s.Holds .user (s.pde v / 4096)

theorem Books.not_user {due : Nat → Int} {e : Ref → Option Nat} (h : Books L due s e) (hk : s.Holds .kernel f) :
    ¬ s.Holds .user f := fun hu => by
  have hpo := (h.poolOf hk).symm.trans (h.poolOf hu)
  cases hpo

theorem Frames.apart {due : Nat → Int} (h : Frames L due s) (hL : L p = some s.cr3) : TablesApart s where
  dir := by
    obtain ⟨v, hv, hr⟩ := h.ok.dir p _ hL
    exact h.not_user ((home_kernel hv).1 (h.ok.home _ _ hr))
  table v hv hp := h.not_user (h.ok.home (.pde p (v / 1024)) _
    (refs_eq_some.2 ⟨_, (entries_pde_user hL hv).2 ⟨hp, rfl⟩, rfl⟩))

/-- Both states show the same pages. -/
theorem Alike.mapped (h : Alike s t₀) (ha : TablesApart s) :
    (present (t₀.pde v) && present (t₀.pte v)) = (present (s.pde v) && present (s.pte v)) := by
  rw [h.pde ha.dir]
  cases hp : present (s.pde v) with
  | false => rfl
  | true => rw [h.pte ha.dir fun hv => ha.table v hv hp]

theorem Alike.walk (h : Alike s t₀) (ha : TablesApart s) : t₀.walk v = s.walk v := by
  unfold Vm.walk
  rw [h.mapped ha]
  cases hp : (present (s.pde v) && present (s.pte v)) with
  | false => rfl
  | true => rw [h.pte ha.dir fun hv => ha.table v hv (by
      rw [Bool.and_eq_true] at hp
      exact hp.1)]

theorem Alike.storeByte {a : Nat} {x : UInt8} (h : Alike s t₀) (hw : t₀.walk (a / 4096) = s.walk (a / 4096)) :
    Mirrors Alike (storeByte a x) s t₀ := by
  unfold Memory.storeByte
  refine Mirrors.readBind hw (Mirrors.getBind fun f _ => Mirrors.change (h.setPhys fun hf => ?_))
  rw [h.phys f hf]

/-- The bit is set in the byte that is there. -/
theorem Alike.setBtmp {u : VirtualAddr} {i : Nat} {x : Bool} (h : Alike s t₀) (hb : kernelBase ≤ u.bits)
    (hf : ¬ s.Holds .user (s.kernelPte (u.bits + i / 8 / 4096) / 4096)) :
    Mirrors Alike (Memory.setBtmp u i x) s t₀ := by
  have hk : t₀.kernelPte = s.kernelPte := by rw [h.eq]
  have heq : Memory.setBtmp u i x = (do
      Cmd.guard (← Cmd.read (·.btmpMapped u)) .fault
      Memory.storeByte (4096 * u.bits + i / 8) (← Cmd.read fun s => ((s.btmp u).set i x).bits (i / 8)) : M Unit) := by
    unfold Memory.setBtmp readBtmp
    rw [bind_assoc]
    refine bind_congr fun c => ?_
    rw [bind_assoc]
    rfl
  have hmapped : t₀.btmpMapped u = s.btmpMapped u := by
    unfold Vm.btmpMapped
    rw [hk]
  have hbyte : ((t₀.btmp u).set i x).bits (i / 8) = ((s.btmp u).set i x).bits (i / 8) := by
    have hold : (t₀.btmp u).bits (i / 8) = (s.btmp u).bits (i / 8) := by
      unfold Vm.btmp
      simp only
      rw [hk, h.phys _ hf]
    unfold Bitmap.set
    simp only [if_true, hold]
  have hwalk : t₀.walk ((4096 * u.bits + i / 8) / 4096) = s.walk ((4096 * u.bits + i / 8) / 4096) := by
    have hge : ¬ (4096 * u.bits + i / 8) / 4096 < kernelBase := by omega
    unfold Vm.walk Vm.pte Vm.pde
    rw [if_neg hge, if_neg hge, if_neg hge, if_neg hge, hk]
  rw [heq]
  exact Mirrors.readBind hmapped (Mirrors.guardBind fun _ => Mirrors.readBind hbyte (h.storeByte hwalk))

theorem Alike.palloc {pf : PoolFlags} (h : Alike s t₀) : Mirrors Alike (palloc pf) s t₀ := by
  have hpool : ∀ {s t : Vm}, Alike s t → t.pool pf = s.pool pf := fun h => by
    rw [h.eq]
    cases pf with
    | kernel => rfl
    | user => rfl
  unfold Memory.palloc
  refine Mirrors.readBind (hpool h) (Mirrors.getBind fun i _ => Mirrors.ite (fun _ => Mirrors.pure h none) fun _ => ?_)
  refine Mirrors.bind (Mirrors.change (h.of_eq ?_ ?_ ?_)) fun _ s₁ t₁ _ h₁ => ?_
  · cases pf with
    | kernel => rfl
    | user => rfl
  · rw [h.eq]
    cases pf with
    | kernel => rfl
    | user => rfl
  · cases pf with
    | kernel => rfl
    | user => rfl
  · refine Mirrors.readBind (hpool h₁) ?_
    unfold memCell
    rw [bind_assoc]
    refine Mirrors.guardBind fun _ => Mirrors.readBind (by rw [h₁.eq]) ?_
    refine Mirrors.bind (Mirrors.change (h₁.of_eq rfl ?_ rfl)) fun _ s₂ t₂ _ h₂ => Mirrors.pure h₂ _
    rw [h₁.eq]
    rfl

theorem Alike.pageTableAdd {due : Nat → Int} (h : Alike s t₀) (hf : Frames L due s) (hd : ∀ f, 0 ≤ due f)
    (hL : L p = some s.cr3) (hv : v < kernelBase) : Mirrors Alike (pageTableAdd v f flag) s t₀ := by
  have ha := hf.apart hL
  unfold Memory.pageTableAdd
  refine Mirrors.readBind (by rw [h.pde ha.dir]) (Mirrors.ite (fun hp => ?_) fun hp => ?_)
  · have htab := ha.table v hv hp
    refine Mirrors.readBind (h.pte ha.dir fun _ => htab) (Mirrors.guardBind fun _ => Mirrors.change ?_)
    rw [setPte_user hv, setPte_user hv, h.pde ha.dir, h.phys _ htab]
    exact h.setPhys fun _ => rfl
  · refine Mirrors.bind h.palloc fun r s₁ t₁ hrun h₁ => ?_
    obtain ⟨k, rfl, hk, hbit, -, rfl⟩ := runs_of_ok (palloc_spec hf) hrun
    have hsame := Vm.SameRest.claim s k
    have hholds : (s.claim k).Holds .user = s.Holds .user := (Vm.SamePools.claim s k).holds .user
    have hkd : s.cr3 ≠ k := fun he => (hf.plain_fresh (hf.unused hd (.inl hk) hbit)).1 p (he ▸ hL)
    have hword : k * 4096 + pgRw < 4294967296 := word_lt (hf.range (.inl hk)).2 (by decide)
    have hcr3 : (s.claim k).cr3 = s.cr3 := hsame.cr3
    simp only [Option.getD_some]
    have h₂ : Alike ((s.claim k).setPde v (k * 4096 + pgRw)) (t₁.setPde v (k * 4096 + pgRw)) := by
      have hcr3' : t₁.cr3 = (s.claim k).cr3 := by rw [h₁.eq]
      unfold Vm.setPde
      rw [hcr3', h₁.phys _ (by rw [hcr3, hholds]; exact ha.dir)]
      exact h₁.setPhys fun _ => rfl
    refine Mirrors.changeBind (Mirrors.changeBind ?_)
    have hpde : ((s.claim k).setPde v (k * 4096 + pgRw)).pde v = k * 4096 + pgRw := by
      rw [pde_user hv]
      unfold Vm.setPde pdeAt
      rw [show ((s.claim k).setPhys (s.claim k).cr3
        (putWord ((s.claim k).phys (s.claim k).cr3) (4 * (v / 1024)) (k * 4096 + pgRw))).cr3 =
          (s.claim k).cr3 from rfl, phys_setPhys_self, le32_putWord_self hword]
    have hdir : ¬ ((s.claim k).setPde v (k * 4096 + pgRw)).Holds .user (s.claim k).cr3 := by
      rw [hcr3]
      intro hu
      exact ha.dir (hholds ▸ hu)
    have hku : ¬ ((s.claim k).setPde v (k * 4096 + pgRw)).Holds .user k := fun hu =>
      hf.not_user hk (hholds ▸ hu)
    generalize hs₃ : (s.claim k).setPde v (k * 4096 + pgRw) = s₃ at *
    generalize t₁.setPde v (k * 4096 + pgRw) = t₂ at *
    have hcr3₃ : s₃.cr3 = (s.claim k).cr3 := by rw [← hs₃]; rfl
    have h₄ : Alike (s₃.setPhys (s₃.pde v / 4096) zeros) (t₂.setPhys (t₂.pde v / 4096) zeros) := by
      rw [h₂.pde (by rw [hcr3₃]; exact hdir)]
      exact h₂.setPhys fun _ => rfl
    rw [hpde, frame_pgRw] at h₄ ⊢
    generalize t₂.setPhys (t₂.pde v / 4096) zeros = t₄ at *
    have hpde₄ : (s₃.setPhys k zeros).pde v / 4096 = k := by
      rw [pde_user hv, pdeAt_setPhys (by show s₃.cr3 ≠ k; rw [hcr3₃, hcr3]; exact hkd)]
      show pdeAt s₃.phys s₃.cr3 _ / 4096 = k
      rw [← pde_user hv, hpde, frame_pgRw]
    have hdir₄ : ¬ (s₃.setPhys k zeros).Holds .user (s₃.setPhys k zeros).cr3 := by
      show ¬ s₃.Holds .user s₃.cr3
      rw [hcr3₃]
      exact hdir
    have htab₄ : ¬ (s₃.setPhys k zeros).Holds .user ((s₃.setPhys k zeros).pde v / 4096) := by
      rw [hpde₄]
      exact hku
    refine Mirrors.readBind (h₄.pte hdir₄ fun _ => htab₄) (Mirrors.guardBind fun _ => Mirrors.change ?_)
    rw [setPte_user hv, setPte_user hv, h₄.pde hdir₄, h₄.phys _ htab₄]
    exact h₄.setPhys fun _ => rfl

/-- `get_a_page` of a process does the same, whatever the frames of the user pool hold. -/
theorem Sound.getAPage_alike (h : Sound L s) (ht : s.tasks s.cur = some t) (hl : t.live = true) (hv : v < 0x100000)
    (ha : Alike s t₀) : Mirrors Alike (Memory.getAPage .user v) s t₀ := by
  have hL := h.inUse t ht hl
  have hu := h.user _ t ht hl
  have hrange : bitIdx v userVaddrStart < 8 * userBtmpLen → v = userVaddrStart + bitIdx v userVaddrStart ∧
    v < kernelBase := bitIdx_user hv
  have hthread : runningThread t₀ = .ok (t, t₀) := runningThread_run (by rw [ha.eq]) (by rw [ha.eq]; exact ht)
  unfold Memory.getAPage reservePage
  rw [bind_assoc]
  refine Mirrors.bind (m := runningThread) ?_ fun r s₁ t₁ hrun h₁ => ?_
  · intro r s₁ he
    rw [runningThread_run rfl ht] at he
    cases he
    exact ⟨t₀, hthread, ha⟩
  rw [runningThread_run rfl ht] at hrun
  cases hrun
  rw [if_pos ⟨TaskStruct.live_pgdir hl, rfl⟩, hu.start]
  simp only [bind_assoc]
  generalize bitIdx v userVaddrStart = i at *
  refine Mirrors.guardBind fun _ => Mirrors.guardBind fun hi => ?_
  rw [hu.len] at hi
  have hvk := (hrange hi).2
  have hpage : ∃ g, refs L s (.kernel (t.userprogVaddr.bits + i / 8 / 4096)) = some g := by
    obtain ⟨g, hg, -⟩ := hu.pages (i / 8 / 4096) (by rw [hu.len]; omega)
    exact ⟨g, hg⟩
  obtain ⟨g, hg⟩ := hpage
  have hheap := hu.heap
  have hbits : kernelBase ≤ t.userprogVaddr.bits := by
    unfold kHeapStart at hheap
    unfold kernelBase
    omega
  have hgu : ¬ s.Holds .user g :=
    h.frames.not_user ((home_kernel (by omega)).1 (h.frames.ok.home _ _ hg))
  refine Mirrors.bind (h₁.setBtmp hbits (by rw [(refs_kernel.1 hg).2]; exact hgu)) fun _ s₂ t₂ hset h₂ => ?_
  have hb := runs_of_ok (setBtmp_spec h.frames hu.toBtmpOk (by rw [hu.len]; omega)) hset
  have hf₂ := hb.frames h.frames
  refine Mirrors.bind h₂.palloc fun r s₃ t₃ hpal h₃ => ?_
  obtain ⟨f, rfl, hf, hbit, hcell, rfl⟩ := runs_of_ok (palloc_spec hf₂) hpal
  have hf₃ : Frames L (owing quits f 1) (s₂.claim f) := by
    unfold Frames
    rw [entries_claim]
    exact hf₂.claim (Vm.holds_pooled hf) hbit hcell
  have hdue : ∀ g, 0 ≤ owing quits f 1 g := fun g => by
    have hq : 0 ≤ quits g := le_refl 0
    unfold owing
    split
    · omega
    · omega
  have hL₃ : L s.cur = some (s₂.claim f).cr3 := by
    rw [(Vm.SameRest.claim s₂ f).cr3, hb.rest.cr3]
    exact hL
  exact Mirrors.bind (h₃.pageTableAdd hf₃ hdue hL₃ hvk) fun _ s₄ t₄ _ h₄ => Mirrors.pure h₄ _

/-- So does a copy to its memory. -/
theorem Sound.memcpyUser_alike : ∀ (src : List UInt8) (dst : Nat) {s t₀ : Vm}, Sound L s → L p = some s.cr3 →
    dst + src.length ≤ 4096 * kernelBase → Alike s t₀ → Mirrors Alike (Memory.memcpyUser dst src) s t₀ := by
  intro src
  induction src with
  | nil => exact fun _ _ _ _ _ _ ha => Mirrors.pure ha ()
  | cons x src ih =>
    intro dst s t₀ h hL hend ha
    rw [List.length_cons] at hend
    have hv : dst / 4096 < kernelBase := by omega
    unfold Memory.memcpyUser
    refine Mirrors.bind (ha.storeByte (ha.walk (h.frames.apart hL))) fun _ s₁ t₁ hrun h₁ => ?_
    cases hr : refs L s (.pte p (dst / 4096)) with
    | none =>
      unfold Memory.storeByte at hrun
      rw [bind_ok (read_run _ s), walk_user hL hv, hr, get_none] at hrun
      cases hrun
    | some f =>
      obtain ⟨hstore, hs₁⟩ := h.storeByte hL hr x
      rw [hstore] at hrun
      cases hrun
      exact ih (dst + 1) hs₁ hL (by omega) h₁

end

end

end Enix.Memory
