import Enix.Memory.Progress

/-!
# Copy-on-write gives every process a memory of its own

`Privates`: processes whose memories are not shared. A store changes one byte of
the process that runs, a fork copies its memory, an exit removes it.

* `Sound.private_step`: while the forks find room, a call does to what the
  processes read just this.
* `forks_private`: so does every run.
-/
set_option autoImplicit false

namespace Enix.Memory
open Enix.Core Enix.Kernel Function

/-- Processes with memories of their own; `mem p v` is page `v` of process `p`. -/
structure Privates where
  cur : Nat
  mem : Nat → Nat → Option Bytes

namespace Privates

def load (m : Privates) (a : Nat) : Option UInt8 := (m.mem m.cur (a / 4096)).map (· (a % 4096))

/-- Process `p` has memory `x`. -/
def give (m : Privates) (p : Nat) (x : Nat → Option Bytes) : Privates := { m with mem := update m.mem p x }

/-- Byte `a` of the process that runs becomes `x`. -/
def store (m : Privates) (a : Nat) (x : UInt8) : Privates :=
  m.give m.cur (update (m.mem m.cur) (a / 4096)
    ((m.mem m.cur (a / 4096)).map fun b => update b (a % 4096) x))

/-- What the calls mean for processes with memories of their own. -/
inductive Step : Call → Privates → Privates → Prop where
  | activate (m : Privates) (p : Nat) : Step (.activate p) m { m with cur := p }
  | load (m : Privates) (a : Nat) : m.load a ≠ none → Step (.load a) m m
  | store (m : Privates) (a : Nat) (x : UInt8) : m.load a ≠ none → Step (.store a x) m (m.store a x)
  | fault (m : Privates) (v : Nat) : Step (.fault v) m m
  | fork (m : Privates) (c : Nat) : c ≠ m.cur → (∀ v, m.mem c v = none) → Step .fork m (m.give c (m.mem m.cur))
  | exit (m : Privates) : Step .exit m (m.give m.cur fun _ => none)
  | wait (m : Privates) : Step .wait m m
  | reap (m : Privates) (q : Nat) : Step (.reap q) m m

inductive Run : List Call → Privates → Privates → Prop where
  | nil (m : Privates) : Run [] m m
  | cons {c : Call} {cs : List Call} {m m₁ m' : Privates} : Step c m m₁ → Run cs m₁ m' → Run (c :: cs) m m'

end Privates

/-- What the processes read. -/
def Vm.privates (s : Vm) : Privates := ⟨s.cur, image s.spaces s⟩

/-- Loads and stores of user code, faults, forks, exits, and what goes with them. -/
def Call.ofProcess : Call → Bool
  | activate _ | load _ | store _ _ | fault _ | fork | exit | wait | reap _ => true
  | _ => false

/-- A call of a run of processes that fork. -/
def Call.Forks (c : Call) (s : Vm) : Prop := c.ofProcess = true ∧ c.Ready s

section
variable {L L' : Spaces} {s s₀ s' : Vm} {c : Call} {calls : List Call} {p a : Nat}

theorem privates_eq {m : Privates} (hc : s'.cur = m.cur) (hi : ∀ p v, image s'.spaces s' p v = m.mem p v) :
    s'.privates = m := by
  unfold Vm.privates
  rw [hc, show image s'.spaces s' = m.mem from funext fun p => funext (hi p)]

theorem Sound.privates_mem (h : Sound L s) (p v : Nat) : s.privates.mem p v = image L s p v := by
  unfold Vm.privates
  rw [h.live]

theorem SameImages.privates (hi : SameImages L L' s s') (h : Sound L s) (h' : Sound L' s') (hc : s'.cur = s.cur) :
    s'.privates = s.privates :=
  privates_eq hc fun p v => by rw [h'.live, hi p v, h.privates_mem]

theorem Sound.privates_load (h : Sound L s) (a : Nat) :
    s.privates.load a = (image L s s.cur (a / 4096)).map (· (a % 4096)) := by
  rw [← h.privates_mem]
  rfl

/-- User code reads the memory of its process. -/
theorem Sound.load_private (h : Sound L s) (hL : L s.cur = some s.cr3) (ha : a / 4096 < kernelBase) :
    Memory.userLoad a s = match s.privates.load a with
      | some x => .ok (x, s)
      | none => .error .fault := by
  rw [h.userLoad hL ha, h.privates_load]
  cases image L s s.cur (a / 4096) with
  | none => rfl
  | some b => rfl

theorem Wrote.privates {x : UInt8} (hw : Wrote L s s' s.cur a x) (h : Sound L s) (h' : Sound L s')
    (hc : s'.cur = s.cur) : s.privates.load a ≠ none ∧ s'.privates = s.privates.store a x := by
  obtain ⟨b, hb, hb'⟩ := hw.own
  refine ⟨by rw [h.privates_load, hb]; simp, privates_eq hc fun p v => ?_⟩
  rw [h'.live]
  show image L s' p v = update s.privates.mem s.cur (update (s.privates.mem s.cur) (a / 4096)
    ((s.privates.mem s.cur (a / 4096)).map fun b => update b (a % 4096) x)) p v
  by_cases hp : p = s.cur
  · subst hp
    rw [update_self]
    by_cases hv : v = a / 4096
    · rw [hv, update_self, hb', h.privates_mem, hb, Option.map_some]
    · rw [update_of_ne hv, hw.same v hv, h.privates_mem]
  · rw [update_of_ne hp, hw.others p v hp, h.privates_mem]

/-- What the memories of the processes are when a space has been added or
taken away. -/
theorem privates_give {y : Option Nat} {m : Nat → Option Bytes} (h : Sound L s) (h' : Sound (update L p y) s')
    (hc : s'.cur = s.cur) (hi : ∀ q v, image (update L p y) s' q v = if q = p then m v else image L s q v) :
    s'.privates = s.privates.give p m := by
  refine privates_eq hc fun q v => ?_
  rw [h'.live, hi]
  show _ = update s.privates.mem p m q v
  by_cases hq : q = p
  · rw [if_pos hq, hq, update_self]
  · rw [if_neg hq, update_of_ne hq, h.privates_mem]

/-- What a call of a process does to the memories. -/
theorem Sound.private_step (h : Sound L s) (hc : c.Forks s) :
    runs (fun _ => True) c.cmd (fun _ s' => (∃ L', Sound L' s') ∧ Privates.Step c s.privates s'.privates) s := by
  obtain ⟨hof, hlegal, hroom⟩ := hc
  have hlive := h.live
  cases c with
  | activate p =>
    obtain ⟨t, ht, hst⟩ := hlegal
    refine runs_mono (h.processActivate ht hst) (fun _ hE => hE.elim) ?_
    rintro - _ ⟨h', f, rfl⟩
    refine ⟨⟨L, h'⟩, ?_⟩
    rw [show ({ s with cr3 := f, cur := p } : Vm).privates = { s.privates with cur := p } from privates_eq rfl
      fun q v => by
        rw [h'.live, h.privates_mem]
        exact image_congr (congrFun (refs_congr rfl rfl) _) fun _ _ => rfl]
    exact .activate _ p
  | load a =>
    obtain ⟨⟨t, ht, hl⟩, ha⟩ := hlegal
    have hL := h.inUse t ht hl
    refine runs_drop ?_
    unfold runs
    rw [h.load_private hL ha]
    cases hx : s.privates.load a with
    | none => trivial
    | some x => exact ⟨⟨L, h⟩, .load _ a (by rw [hx]; simp)⟩
  | store a x =>
    obtain ⟨⟨t, ht, hl⟩, ha⟩ := hlegal
    refine runs_mono (h.userStore (B := False) ht hl ha x fun hb => hb.elim) (fun _ _ => trivial) ?_
    rintro - s' ⟨h', hw, f, s₁, -, hs₁, g, rfl, -⟩
    have hcur : s₁.cur = s.cur := by
      rcases hs₁ with rfl | hu
      · rfl
      · exact hu.rest.cur
    obtain ⟨hload, hp⟩ := hw.privates h h' hcur
    refine ⟨⟨L, h'⟩, ?_⟩
    rw [hp]
    exact .store _ a x hload
  | fault v =>
    obtain ⟨⟨t, ht, hl⟩, hv⟩ := hlegal
    refine runs_mono (h.pageFault (B := False) ht hl hv fun hb => hb.elim) (fun _ _ => trivial) ?_
    rintro - s' ⟨f, hr, h', hu⟩
    refine ⟨⟨L, h'⟩, ?_⟩
    rw [(hu.images h hr).privates h h' hu.rest.cur]
    exact .fault _ v
  | fork =>
    obtain ⟨⟨t, ht, hl⟩, hfew⟩ := hlegal
    rw [hlive] at hfew
    refine runs_drop (runs_mono (h.sysFork ht hl hfew hroom) (fun _ _ => trivial) ?_)
    rintro r s' ⟨c, d, tc, h', hf, -⟩
    refine ⟨⟨_, h'⟩, ?_⟩
    have hLc : L c = none := by
      rw [← hlive]
      unfold Vm.spaces
      rw [hf.unborn]
      rfl
    have hne : c ≠ s.cur := by
      rintro rfl
      have hno := hf.unborn
      rw [ht] at hno
      cases hno
    rw [privates_give h h' hf.cur (hf.images h), show image L s s.cur = s.privates.mem s.privates.cur from
      funext fun v => (h.privates_mem _ v).symm]
    exact .fork _ c hne fun v => by rw [h.privates_mem, image_dead hLc]
  | exit =>
    obtain ⟨t, ht, hl⟩ := hlegal
    refine runs_mono (h.sysExit ht hl) (fun _ _ => trivial) ?_
    rintro - s' ⟨h', hx⟩
    refine ⟨⟨_, h'⟩, ?_⟩
    rw [privates_give h h' hx.cur hx.images]
    exact .exit _
  | wait =>
    obtain ⟨t, ht, hst⟩ := hlegal
    refine runs_drop (runs_mono (h.sysWait ht hst) (fun _ hE => hE.elim) ?_)
    rintro r s' ⟨h', hq⟩
    refine ⟨⟨L, h'⟩, ?_⟩
    have hsame : SameImages L L s s' ∧ s'.cur = s.cur := by
      rcases hq with ⟨q, tc, -, -, -, hr⟩ | ⟨-, rfl | rfl⟩
      · exact ⟨hr.images, hr.cur⟩
      · exact ⟨fun _ _ => rfl, rfl⟩
      · exact ⟨fun p v => image_congr (congrFun (refs_congr rfl rfl) _) fun _ _ => rfl, rfl⟩
    rw [hsame.1.privates h h' hsame.2]
    exact .wait _
  | reap q =>
    obtain ⟨t, ht, hl⟩ := hlegal
    refine runs_mono (h.threadExit ht hl) (fun _ hE => hE.elim) ?_
    rintro - s' ⟨h', hr⟩
    refine ⟨⟨L, h'⟩, ?_⟩
    rw [hr.images.privates h h' hr.cur]
    exact .reap _ q
  | mainThread => cases hof
  | execute name => cases hof
  | start => cases hof
  | malloc pf n => cases hof
  | kernelPages n => cases hof
  | mfree pf v n => cases hof
  | page pf v => cases hof
  | kernelStore a x => cases hof

/-- In every run of processes that fork, each reads the memory it would have if
nothing were shared. -/
theorem forks_private (h : Reachable Call.Ready s₀) (hr : Steps Call.cmd Call.Forks calls s₀ s) :
    Privates.Run calls s₀.privates s.privates ∧ ∀ a, s.inProcess → a / 4096 < kernelBase →
      userLoad a s = match s.privates.load a with
        | some x => .ok (x, s)
        | none => .error .fault := by
  obtain ⟨L, h₀⟩ := reachable_sound h
  suffices hall : (∃ L', Sound L' s) ∧ Privates.Run calls s₀.privates s.privates by
    obtain ⟨⟨L', h'⟩, hrun⟩ := hall
    exact ⟨hrun, fun a ⟨t, ht, hl⟩ ha => h'.load_private (h'.inUse t ht hl) ha⟩
  clear h
  induction hr generalizing L with
  | nil => exact ⟨⟨L, h₀⟩, .nil _⟩
  | cons hc he _ ih =>
    obtain ⟨⟨L₁, h₁⟩, hstep⟩ := runs_of_ok (h₀.private_step hc) he
    obtain ⟨hs, hrun⟩ := ih L₁ h₁
    exact ⟨hs, .cons hstep hrun⟩

/-- A process forks, and stores to the page of the stack. -/
theorem forks_private_store : ∃ s₀ s, Reachable Call.Ready s₀ ∧
    Steps Call.cmd Call.Forks [.fork, .store (4096 * userStack3) 7] s₀ s ∧
    Privates.Run [.fork, .store (4096 * userStack3) 7] s₀.privates s.privates := by
  obtain ⟨L, s₀, s₁, p, c, d, t, tc, hreach, h₀, hs, hf, hp, hname, hh⟩ := two_processes (m := 7680) (n := 480) (k := 2)
    (a := 0) (e := 1) (l := 0) (by decide) (by decide) (fun _ => zeros) (by decide) (by decide) (by decide) (by decide)
  have ht : s₁.tasks s₁.cur = some t := by rw [hp.cur]; exact hp.parent
  obtain ⟨f, hst, -⟩ := hp.stack
  have hdiv : 4096 * userStack3 / 4096 = userStack3 := by decide
  obtain ⟨s₂, hs₂, -⟩ := runs_step (C := Call.Forks) (c := .store (4096 * userStack3) 7)
    (hp.sound.store_returns (a := 4096 * userStack3) ht hp.parentLive (by decide) (by
      rw [hdiv, hp.cur, refs_eq_some.2 ⟨_, hst, rfl⟩]
      simp) 7 hh) ⟨rfl, ⟨⟨t, ht, hp.parentLive⟩, by decide⟩, trivial⟩
  have hfork : Steps Call.cmd Call.Forks [.fork] s₀ s₁ := by
    cases hs with
    | cons hc he hn => exact .cons ⟨rfl, hc⟩ he (hn.mono_nil)
  have hrun := hfork.append hs₂
  exact ⟨s₀, s₂, hreach, hrun, (forks_private hreach hrun).1⟩

end

end Enix.Memory
