import Enix.Memory.Private

/-!
# Stores of the kernel to user memory

In ring 0 the processor does not look at R/W, so what the kernel copies to a
page that is shared after a fork (`sys_read`, `sys_stat`, the loader of a
program, the headers of the heap) is not preceded by a fault.

* `memcpyUser_spec`: what a copy changes.
* `memcpyUser_private`: the other processes read what they did exactly if every
  byte that goes to a shared page is there already.
-/
set_option autoImplicit false

namespace Enix.Memory
open Enix.Core Enix.Kernel Function

/-- A copy to the memory of the running process.
mirrors src/lib/string.c:15-22 (`memcpy`) -/
def memcpyUser : (dst : Nat) → (src : List UInt8) → M Unit
  | _, [] => pure ()
  | dst, x :: src => do
    storeByte dst x
    memcpyUser (dst + 1) src

/-- Page `v` of the running process is on a frame that another process maps. -/
def Vm.shares (s : Vm) (v : Nat) : Prop :=
  ∃ q f, q ≠ s.cur ∧ refs s.spaces s (.pte s.cur v) = some f ∧ refs s.spaces s (.pte q v) = some f

/-- The bytes `src` are at `dst` in process `p`, and no other byte of a frame has
changed. -/
structure Copied (L : Spaces) (s s' : Vm) (p dst : Nat) (src : List UInt8) : Prop where
  sound : Sound L s'
  refs : refs L s' = refs L s
  cur : s'.cur = s.cur
  cr3 : s'.cr3 = s.cr3
  copied : ∀ i (hi : i < src.length), ∃ f, Memory.refs L s (.pte p ((dst + i) / 4096)) = some f ∧
    s'.phys f ((dst + i) % 4096) = src[i]
  frame : ∀ f o, (∀ i, i < src.length → Memory.refs L s (.pte p ((dst + i) / 4096)) = some f → (dst + i) % 4096 ≠ o) →
    s'.phys f o = s.phys f o

section
variable {L : Spaces} {s s' : Vm} {t : TaskStruct} {f p q v dst : Nat}

/-- Two pages of a process are on two frames. -/
theorem Sound.page_inj (h : Sound L s) {w : Nat} (h₁ : refs L s (.pte p v) = some f) (h₂ : refs L s (.pte q w) = some f) :
    w = v := by
  obtain ⟨q', he⟩ := h.frames.ok.page_only h.frames.pooled_base h₁ h₂
  injection he

/-- Byte by byte; a page that is not there is a fault for ever. -/
theorem memcpyUser_spec : ∀ src dst s, Sound L s → L p = some s.cr3 → dst + src.length ≤ 4096 * kernelBase →
    runs (fun x => x = .fault) (memcpyUser dst src) (fun _ s' => Copied L s s' p dst src) s := by
  intro src
  induction src with
  | nil =>
    intro dst s h _ _
    exact ⟨h, rfl, rfl, rfl, fun i hi => absurd hi (Nat.not_lt_zero i), fun _ _ _ => rfl⟩
  | cons x src ih =>
    intro dst s h hL hend
    have hv : dst / 4096 < kernelBase := by
      simp only [List.length_cons] at hend
      omega
    unfold memcpyUser
    cases hr : refs L s (.pte p (dst / 4096)) with
    | none =>
      unfold storeByte
      rw [runs_bind, runs_read_bind, walk_user hL hv, hr, get_none, runs_bind, runs_stop]
    | some f =>
      obtain ⟨hrun, h₁⟩ := h.storeByte hL hr x
      have hrefs := refs_setPage h hr (update (s.phys f) (dst % 4096) x)
      have hself : (s.setPhys f (update (s.phys f) (dst % 4096) x)).phys f = update (s.phys f) (dst % 4096) x :=
        phys_setPhys_self
      have hne : ∀ g, g ≠ f → (s.setPhys f (update (s.phys f) (dst % 4096) x)).phys g = s.phys g := fun g hg =>
        phys_setPhys_ne hg
      rw [runs_bind_ok hrun]
      refine runs_post (ih (dst + 1) _ h₁ hL (by simp only [List.length_cons] at hend; omega)) ?_
      intro _ s' hc
      have hcop := hc.copied
      have hfr := hc.frame
      rw [hrefs] at hcop hfr
      refine ⟨hc.sound, hc.refs.trans hrefs, hc.cur, hc.cr3, fun i hi => ?_, fun g o hg => ?_⟩
      · cases i with
        | zero =>
          refine ⟨f, hr, ?_⟩
          rw [Nat.add_zero, hfr f (dst % 4096) fun i _ hi ho => ?_, hself, update_self]
          · rfl
          · have hdiv := h.page_inj hr hi
            omega
        | succ i =>
          obtain ⟨g, hg, hb⟩ := hcop i (Nat.lt_of_succ_lt_succ hi)
          rw [show dst + 1 + i = dst + (i + 1) by omega] at hg hb
          exact ⟨g, hg, hb⟩
      · rw [hfr g o fun i hi hgi => ?_]
        · by_cases hgf : g = f
          · have ho : dst % 4096 ≠ o := hg 0 (Nat.succ_pos _) (by rw [hgf]; exact hr)
            rw [hgf, hself, update_of_ne (Ne.symm ho)]
          · rw [hne g hgf]
        · rw [show dst + 1 + i = dst + (i + 1) by omega] at hgi ⊢
          exact hg (i + 1) (Nat.succ_lt_succ hi) hgi

/-- After a fork, a byte of the page of the stack is changed by the kernel. -/
theorem exists_copied : ∃ L s s' q f x, Reachable Call.Ready s ∧ Sound L s ∧ s.inProcess ∧ q ≠ s.cur ∧
    refs L s (.pte q userStack3) = some f ∧ memcpyUser (4096 * userStack3) [x] s = .ok ((), s') ∧
    Copied L s s' s.cur (4096 * userStack3) [x] ∧ refs L s (.pte s.cur userStack3) = some f ∧ s.phys f 0 ≠ x := by
  obtain ⟨L, s₀, s, p, c, d, t, tc, ⟨allMem, phys, calls, h₀⟩, -, hs, -, hp, -, -⟩ := two_processes (m := 7680) (n := 480)
    (k := 0) (a := 0) (e := 0) (l := 0) (by decide) (by decide) (fun _ => zeros) (by decide) (by decide) (by decide)
    (by decide)
  obtain ⟨f, hpf, hcf⟩ := hp.stack
  have ht : s.tasks s.cur = some t := by rw [hp.cur]; exact hp.parent
  have hL := hp.sound.inUse t ht hp.parentLive
  have hr : refs (update L c (some d)) s (.pte s.cur userStack3) = some f := by
    rw [hp.cur]
    exact refs_eq_some.2 ⟨_, hpf, frame_pgRo f⟩
  have hdiv : 4096 * userStack3 / 4096 = userStack3 := by decide
  obtain ⟨x, hx⟩ : ∃ x, x ≠ s.phys f 0 := by
    by_cases hz : s.phys f 0 = 0
    · exact ⟨1, by rw [hz]; decide⟩
    · exact ⟨0, Ne.symm hz⟩
  obtain ⟨hrun, -⟩ := hp.sound.storeByte (a := 4096 * userStack3) hL (by rw [hdiv]; exact hr) x
  have hcopy : memcpyUser (4096 * userStack3) [x] s =
      .ok ((), s.setPhys f (update (s.phys f) (4096 * userStack3 % 4096) x)) := by
    unfold memcpyUser
    rw [bind_ok hrun]
    rfl
  have hcop := runs_of_ok (memcpyUser_spec [x] (4096 * userStack3) s hp.sound hL
    (show 4096 * userStack3 + 1 ≤ 4096 * kernelBase by decide)) hcopy
  exact ⟨_, s, _, c, f, x, ⟨allMem, phys, _, h₀.append hs⟩, hp.sound, ⟨t, ht, hp.parentLive⟩, by rw [hp.cur]; exact hp.ne,
    refs_eq_some.2 ⟨_, hcf, frame_pgRo f⟩, hcopy, hcop, hr, Ne.symm hx⟩

/-- A copy of the kernel is seen by another process exactly if it changes a byte
of a shared page. -/
theorem memcpyUser_private {src : List UInt8} (h : Reachable Call.Ready s) (hp : s.inProcess)
    (hend : dst + src.length ≤ 4096 * kernelBase) (hrun : memcpyUser dst src s = .ok ((), s')) :
    (∀ q v, q ≠ s.cur → s'.privates.mem q v = s.privates.mem q v) ↔
      ∀ i (hi : i < src.length), s.shares ((dst + i) / 4096) → s.privates.load (dst + i) = some src[i] := by
  obtain ⟨L, hs⟩ := reachable_sound h
  obtain ⟨t, ht, hl⟩ := hp
  have hc := runs_of_ok (memcpyUser_spec src dst s hs (hs.inUse t ht hl) hend) hrun
  have himg : ∀ q v, s'.privates.mem q v = (refs L s (.pte q v)).map s'.phys := fun q v => by
    rw [hc.sound.privates_mem, image, hc.refs]
  have himg₀ : ∀ q v, s.privates.mem q v = (refs L s (.pte q v)).map s.phys := fun q v => hs.privates_mem q v
  unfold Vm.shares
  rw [hs.live]
  constructor
  · rintro hsame i hi ⟨q, f, hq, hf, hqf⟩
    obtain ⟨g, hg, hb⟩ := hc.copied i hi
    rw [hf] at hg
    cases hg
    have heq := hsame q ((dst + i) / 4096) hq
    rw [himg, himg₀, hqf, Option.map_some, Option.map_some] at heq
    rw [hs.privates_load, image, hf, Option.map_some, Option.map_some, ← Option.some.inj heq, hb]
  · intro hall q v hq
    rw [himg, himg₀]
    cases hqf : refs L s (.pte q v) with
    | none => rfl
    | some f =>
      rw [Option.map_some, Option.map_some]
      congr 1
      funext o
      by_cases hw : ∃ i, i < src.length ∧ refs L s (.pte s.cur ((dst + i) / 4096)) = some f ∧ (dst + i) % 4096 = o
      · obtain ⟨i, hi, hf, rfl⟩ := hw
        obtain ⟨g, hg, hb⟩ := hc.copied i hi
        rw [hf] at hg
        cases hg
        have hv := hs.page_inj hf hqf
        have hload := hall i hi ⟨q, f, hq, hf, by rw [← hv]; exact hqf⟩
        rw [hs.privates_load, image, hf, Option.map_some, Option.map_some] at hload
        rw [hb, Option.some.inj hload]
      · exact hc.frame f o fun i hi hf ho => hw ⟨i, hi, hf, ho⟩

/-- A byte of the page of the stack, after a fork. -/
theorem memcpyUser_private_stack : ∃ s s' x, Reachable Call.Ready s ∧ memcpyUser (4096 * userStack3) [x] s = .ok ((), s') ∧
    ((∀ q v, q ≠ s.cur → s'.privates.mem q v = s.privates.mem q v) ↔
      ∀ i (hi : i < [x].length), s.shares ((4096 * userStack3 + i) / 4096) →
        s.privates.load (4096 * userStack3 + i) = some [x][i]) := by
  obtain ⟨L, s, s', q, f, x, hreach, -, hp, -, -, hrun, -⟩ := exists_copied
  exact ⟨s, s', x, hreach, hrun, memcpyUser_private hreach hp
    (show 4096 * userStack3 + 1 ≤ 4096 * kernelBase by decide) hrun⟩

/-- The child reads what the kernel has copied for its parent. -/
theorem memcpyUser_leaks : ¬ ∀ (s s' : Vm) (dst : Nat) (src : List UInt8), Reachable Call.Ready s → s.inProcess →
    dst + src.length ≤ 4096 * kernelBase → memcpyUser dst src s = .ok ((), s') →
    ∀ q v, q ≠ s.cur → s'.privates.mem q v = s.privates.mem q v := by
  intro hall
  obtain ⟨L, s, s', q, f, x, hreach, hs, hp, hq, hqf, hrun, hc, hpf, hx⟩ := exists_copied
  have hsame := hall s s' _ _ hreach hp (show 4096 * userStack3 + 1 ≤ 4096 * kernelBase by decide) hrun q
    userStack3 hq
  obtain ⟨g, hg, hb⟩ := hc.copied 0 (by simp)
  rw [show (4096 * userStack3 + 0) / 4096 = userStack3 by decide, hpf] at hg
  cases hg
  rw [show (4096 * userStack3 + 0) % 4096 = 0 by decide] at hb
  rw [hc.sound.privates_mem, hs.privates_mem, image, image, hc.refs, hqf, Option.map_some, Option.map_some] at hsame
  exact hx (by rw [← Option.some.inj hsame]; exact hb)

end

end Enix.Memory
