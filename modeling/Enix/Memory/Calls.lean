import Enix.Memory.UserMode

/-!
# Runs

A run is a sequence of calls of the kernel and of accesses by user code, each
of which meets what its callers promise (`Call.Legal`). `Sound.call`: while the
forks find room for a bitmap, every call keeps the invariant, whatever the
order and the processes; `reachable_sound`: so it holds in every state that can
be reached from `boot`.
-/
set_option autoImplicit false

namespace Enix.Memory
open Enix.Core Enix.Kernel Function

inductive Call where
  | mainThread
  | activate (p : Nat)
  | execute (name : List UInt8)
  | start
  | malloc (pf : PoolFlags) (n : Nat)
  | kernelPages (n : Nat)
  | mfree (pf : PoolFlags) (v n : Nat)
  | page (pf : PoolFlags) (v : Nat)
  | fork
  | load (a : Nat)
  | store (a : Nat) (x : UInt8)
  | fault (v : Nat)
  | kernelStore (a : Nat) (x : UInt8)
  | exit
  | wait
  | reap (q : Nat)

namespace Call

/-- What is executed; results are dropped. -/
def cmd : Call → M Unit
  | mainThread => makeMainThread
  | activate p => processActivate p
  | execute name => processExecute name
  | start => startProcess
  | malloc pf n => do
    let _ ← mallocPage pf n
  | kernelPages n => do
    let _ ← getKernelPages n
  | mfree pf v n => mfreePage pf v n
  | page pf v => do
    let _ ← getAPage pf v
  | fork => do
    let _ ← sysFork
  | load a => do
    let _ ← userLoad a
  | store a x => userStore a x
  | fault v => pageFault v
  | kernelStore a x => storeByte a x
  | exit => sysExit
  | wait => do
    let _ ← sysWait
  | reap q => threadExit q

end Call

/-- A process runs that has not ended. -/
def Vm.inProcess (s : Vm) : Prop := ∃ t, s.tasks s.cur = some t ∧ t.live = true

/-- A thread runs that has not ended. -/
def Vm.awake (s : Vm) : Prop := ∃ t, s.tasks s.cur = some t ∧ t.status ≠ .hanging

/-- What the callers of a call promise. Pages that are given back are there, and
those of the kernel are no part of a process; user code stays in the user's
half; fewer than 256 address spaces are alive. -/
def Call.Legal : Call → Vm → Prop
  | mainThread, s => s.tasks Memory.mainThread = none
  | activate p, s => ∃ t, s.tasks p = some t ∧ t.status ≠ .hanging
  | execute _, s => (s.cur = Memory.mainThread ∨ s.tasks s.cur ≠ none) ∧ alive s.spaces + 1 < 256
  | start, s => s.inProcess
  | malloc .kernel _, _ => True
  | malloc .user _, s => s.inProcess
  | kernelPages _, _ => True
  | mfree .kernel v n, s => kHeapStart ≤ v ∧ (∀ k, k < n → present (s.kernelPte (v + k)) = true) ∧
      ∀ p a k, k < n → s.part p a ≠ some (v + k)
  | mfree .user v n, s => s.inProcess ∧ ∀ u, v ≤ u → u < v + n → refs s.spaces s (.pte s.cur u) ≠ none
  | page _ v, s => s.awake ∧ v < 0x100000
  | fork, s => s.inProcess ∧ alive s.spaces + 1 < 256
  | load a, s => s.inProcess ∧ a / 4096 < kernelBase
  | store a _, s => s.inProcess ∧ a / 4096 < kernelBase
  | fault v, s => s.inProcess ∧ v < kernelBase
  | kernelStore a _, s => s.inProcess ∧ a / 4096 < kernelBase
  | exit, s => s.inProcess
  | wait, s => s.awake
  | reap q, s => ∃ t, s.tasks q = some t ∧ t.live = false

/-- A fork finds room for the child's bitmap. -/
def Call.Roomy : Call → Vm → Prop
  | fork, s => s.bitmapRoom = true
  | _, _ => True

/-- The condition of the runs in which every fork finds room. -/
def Call.Ready (c : Call) (s : Vm) : Prop := c.Legal s ∧ c.Roomy s

/-- From the boot of the machine to `s`. -/
def Reachable (C : Call → Vm → Prop) (s : Vm) : Prop :=
  ∃ allMem phys calls, Steps Call.cmd C calls (boot allMem phys) s

/-- The calls stop in other ways than at the ASSERT of `free_a_phy_page`. -/
def CallStop (x : Stop) : Prop := x ≠ .assertion .freeAPhyPage

section
variable {L : Spaces} {s s' : Vm} {t : TaskStruct} {c : Call} {C : Call → Vm → Prop} {p v n a : Nat}

theorem OutOfMemory.callStop {x : Stop} (h : OutOfMemory x) : CallStop x := by
  rintro rfl
  rcases h with h | h
  · cases h
  · cases h

theorem Refused.callStop {x : Stop} {l : List Site} (h : Refused l x) (hl : Site.freeAPhyPage ∉ l) : CallStop x := by
  rcases h with h | ⟨a, ha, rfl⟩
  · exact h.callStop
  · intro hc
    injection hc with hc
    exact hl (hc ▸ ha)

theorem PageStop.refused {x : Stop} (h : PageStop L s p v x) : Refused [.getAPage, .pageTableAdd] x := by
  rcases h with h | ⟨rfl, -⟩ | ⟨rfl, -⟩
  · exact .inl h
  · exact .inr ⟨_, by simp, rfl⟩
  · exact .inr ⟨_, by simp, rfl⟩

theorem ForkStop.callStop {x : Stop} (h : ForkStop t x) : CallStop x := by
  rcases h with h | ⟨rfl, -⟩
  · exact h.callStop
  · intro hc
    cases hc

/-- What is called is called for its effect. -/
theorem runs_drop {α : Type} {E : Stop → Prop} {m : M α} {P : Vm → Prop} (h : runs E m (fun _ s' => P s') s) :
    runs E (do let _ ← m) (fun _ s' => P s') s :=
  runs_seq h fun _ _ hp => hp

/-- `get_a_page`, whatever the pool and whoever runs. -/
theorem Sound.getAPage (h : Sound L s) (ht : s.tasks s.cur = some t) (hst : t.status ≠ .hanging) (pf : PoolFlags)
    (hv : v < 0x100000) : runs (Refused [.getAPage, .pageTableAdd]) (getAPage pf v)
      (fun _ s' => Sound L s' ∧ (GotUser L s s' s.cur v 1 ∨ NewPages L s s' v 1)) s := by
  by_cases hd : t.pgdir = 0
  · cases pf with
    | kernel => exact runs_post (h.getAPageKernel ht hd hv) fun _ _ hq => ⟨hq.2.1, .inr hq.2.2⟩
    | user =>
      unfold Memory.getAPage reservePage
      rw [runs_bind, runs_bind_ok (runningThread_run rfl ht), if_neg fun hc => hc.1 hd]
      refine runs_guard_bind (fun _ => .inr ⟨_, by simp, rfl⟩) fun hc => ?_
      cases hc.2
  · have hl : t.live = true := by
      unfold TaskStruct.live
      simp [hd, hst]
    cases pf with
    | user => exact runs_mono (h.getAPageUser ht hl hv) (fun _ => PageStop.refused) fun _ _ hq => ⟨hq.2.1, .inl hq.2.2⟩
    | kernel =>
      unfold Memory.getAPage reservePage
      rw [runs_bind, runs_bind_ok (runningThread_run rfl ht), if_neg fun hc => by cases hc.2]
      generalize bitIdx v kHeapStart = i
      exact runs_guard_bind (fun _ => .inr ⟨_, by simp, rfl⟩) fun hc => absurd hc.1 hd

/-- Every call keeps the invariant. -/
theorem Sound.call (h : Sound L s) (hc : c.Legal s) (hr : c.Roomy s) :
    runs CallStop c.cmd (fun _ s' => ∃ L', Sound L' s') s := by
  have hL := h.live
  cases c with
  | mainThread => exact runs_mono (h.makeMainThread hc) (fun _ => OutOfMemory.callStop) fun _ _ hq => ⟨L, hq.1⟩
  | activate p =>
    obtain ⟨t, ht, hst⟩ := hc
    exact runs_mono (h.processActivate ht hst) (fun _ hE => hE.elim) fun _ _ hq => ⟨L, hq.1⟩
  | execute name =>
    obtain ⟨hcur, hfew⟩ := hc
    rw [hL] at hfew
    refine runs_mono (h.processExecute hfew hcur name) (fun x hx => ?_) fun _ _ ⟨_, _, _, hq, _⟩ => ⟨_, hq⟩
    rcases hx with hx | rfl
    · exact hx.callStop
    · intro he
      cases he
  | start =>
    obtain ⟨t, ht, hl⟩ := hc
    exact runs_drop (runs_mono (h.getAPageUser ht hl (by decide)) (fun _ hx => hx.refused.callStop (by decide))
      fun _ _ hq => ⟨L, hq.2.1⟩)
  | malloc pf n =>
    cases pf with
    | kernel =>
      refine runs_drop ?_
      by_cases hn : 0 < n ∧ n < 3840
      · refine runs_mono (h.mallocKernel hn.1 hn.2) (fun _ => OutOfMemory.callStop) fun r s' hq => ?_
        rcases hq with ⟨-, rfl⟩ | ⟨v, -, hs', -⟩
        · exact ⟨L, h⟩
        · exact ⟨L, hs'⟩
      · unfold mallocPage
        exact runs_guard_bind (fun _ he => by cases he) fun hc => absurd hc hn
    | user =>
      obtain ⟨t, ht, hl⟩ := hc
      refine runs_drop (runs_mono (h.mallocUser ht hl n) (fun _ hx => hx.1.callStop (by decide)) fun r s' hq => ?_)
      rcases hq with ⟨-, hs', -⟩ | ⟨v, -, hs', -⟩
      · exact ⟨L, hs'⟩
      · exact ⟨L, hs'⟩
  | kernelPages n =>
    refine runs_drop ?_
    by_cases hn : 0 < n ∧ n < 3840
    · refine runs_mono (h.getKernelPages hn.1 hn.2) (fun _ => OutOfMemory.callStop) fun r s' hq => ?_
      rcases hq with ⟨-, rfl, -⟩ | ⟨v, -, hs', -⟩
      · exact ⟨L, h⟩
      · exact ⟨L, hs'⟩
    · unfold Memory.getKernelPages mallocPage
      rw [runs_bind]
      exact runs_guard_bind (fun _ he => by cases he) fun hc => absurd hc hn
  | mfree pf v n =>
    by_cases hn : 1 ≤ n
    · cases pf with
      | kernel =>
        obtain ⟨hv, hp, hown⟩ := hc
        exact runs_mono (h.mfreeKernel hv hn hp hown) (fun _ hE => hE.elim) fun _ _ hq => ⟨L, hq.1⟩
      | user =>
        obtain ⟨⟨t, ht, hl⟩, hp⟩ := hc
        rw [hL] at hp
        refine runs_mono (h.mfreeUser ht hl hn fun u h1 h2 => Option.ne_none_iff_exists'.1 (hp u h1 h2)) ?_
          fun _ _ hq => ⟨L, hq.1⟩
        rintro x ⟨rfl, -⟩ he
        cases he
    · unfold Call.cmd mfreePage
      exact runs_guard_bind (fun _ he => by cases he) fun hc => absurd hc hn
  | page pf v =>
    obtain ⟨⟨t, ht, hst⟩, hv⟩ := hc
    exact runs_drop (runs_mono (h.getAPage ht hst pf hv) (fun _ hx => hx.callStop (by decide)) fun _ _ hq =>
      ⟨L, hq.1⟩)
  | fork =>
    obtain ⟨⟨t, ht, hl⟩, hfew⟩ := hc
    rw [hL] at hfew
    exact runs_drop (runs_mono (h.sysFork ht hl hfew hr) (fun _ => ForkStop.callStop)
      fun _ _ ⟨_, _, _, hq, _⟩ => ⟨_, hq⟩)
  | load a =>
    obtain ⟨⟨t, ht, hl⟩, ha⟩ := hc
    refine runs_drop ?_
    unfold runs
    rw [h.userLoad (h.inUse t ht hl) ha]
    cases image L s s.cur (a / 4096) with
    | none => exact fun he => by cases he
    | some b => exact ⟨L, h⟩
  | store a x =>
    obtain ⟨⟨t, ht, hl⟩, ha⟩ := hc
    refine runs_mono (h.userStore (B := False) ht hl ha x (fun hb => hb.elim)) (fun e he => ?_) fun _ _ hq => ⟨L, hq.1⟩
    rcases he with ⟨he, -⟩ | ⟨rfl, -⟩
    · exact he.callStop
    · intro hc
      cases hc
  | fault v =>
    obtain ⟨⟨t, ht, hl⟩, hv⟩ := hc
    refine runs_mono (h.pageFault (B := False) ht hl hv (fun hb => hb.elim)) (fun e he => ?_) fun _ _ ⟨_, _, hq, _⟩ => ⟨L, hq⟩
    rcases he with ⟨he, -⟩ | ⟨rfl, -⟩
    · exact he.callStop
    · intro hc
      cases hc
  | kernelStore a x =>
    obtain ⟨⟨t, ht, hl⟩, ha⟩ := hc
    have hLc := h.inUse t ht hl
    cases hr' : refs L s (.pte s.cur (a / 4096)) with
    | none =>
      unfold Call.cmd Memory.storeByte
      rw [runs_read_bind, walk_user hLc ha, hr', get_none, runs_bind]
      exact fun he => by cases he
    | some f =>
      obtain ⟨hrun, hs'⟩ := h.storeByte hLc hr' x
      exact (runs_ok hrun).2 ⟨L, hs'⟩
  | exit =>
    obtain ⟨t, ht, hl⟩ := hc
    refine runs_mono (h.sysExit ht hl) (fun e he => ?_) fun _ _ hq => ⟨_, hq.1⟩
    rcases he with ⟨rfl, -⟩ | ⟨rfl, -⟩
    · intro hc
      cases hc
    · intro hc
      cases hc
  | wait =>
    obtain ⟨t, ht, hst⟩ := hc
    exact runs_drop (runs_mono (h.sysWait ht hst) (fun _ hE => hE.elim) fun _ _ hq => ⟨L, hq.1⟩)
  | reap q =>
    obtain ⟨t, ht, hl⟩ := hc
    exact runs_mono (h.threadExit ht hl) (fun _ hE => hE.elim) fun _ _ hq => ⟨L, hq.1⟩

/-- The invariant holds in every state that is reached while the forks find room. -/
theorem reachable_sound (h : Reachable Call.Ready s) : ∃ L, Sound L s := by
  obtain ⟨allMem, phys, calls, hsteps⟩ := h
  refine hsteps.invariant (I := fun s => ∃ L, Sound L s) ?_ ⟨_, boot_sound allMem phys⟩
  rintro c s a s₁ ⟨L, hs⟩ ⟨hc, hr⟩ he
  exact runs_of_ok (hs.call hc hr) he

end

end Enix.Memory
