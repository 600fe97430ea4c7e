import Enix.Memory.Heap
import Enix.Memory.UserMode

/-!
# Bytes and words of a process

The heap of a process is in two places: its pages of the user's half, and
`u_block_desc` in the page of its `task_struct`. These pages are on frames of
their own, so that a store to one of them is seen at its address and nowhere
else.

* `Pokes L s s' A`: from `s` to `s'` the bytes at addresses in `A` may have
  changed, and nothing else has.
* `storeWord_spec`, `storeByte_spec`, `zeroPages_spec`, `zeroBytes_spec`: the
  stores.
-/
set_option autoImplicit false

namespace Enix.Memory
open Enix.Core Enix.Kernel Function

namespace Vm

/-- The byte at address `a`, 0 where there is no page. -/
def byteAt (s : Vm) (a : Nat) : UInt8 :=
  match s.walk (a / 4096) with
  | some f => s.phys f (a % 4096)
  | none => 0

/-- The word at address `a`. -/
def wordAt (s : Vm) (a : Nat) : Nat := le32 s.byteAt a

/-- Page `v` is there, and is a page of the user's half or the `task_struct` of
the running process. -/
def own (s : Vm) (v : Nat) : Prop := (v < kernelBase ∨ v = s.cur) ∧ s.walk v ≠ none

end Vm

/-- `running_thread()` is process `t`, in its address space. -/
structure Running (L : Spaces) (s : Vm) (t : TaskStruct) : Prop where
  sound : Sound L s
  task : s.tasks s.cur = some t
  live : t.live = true
  page : s.cur < 0x100000

/-- Only the bytes at addresses in `A` may have changed. -/
structure Pokes (L : Spaces) (s s' : Vm) (A : Nat → Prop) : Prop extends Stored L s s' where
  sound : Sound L s'
  byte : ∀ a, s.own (a / 4096) → ¬ A a → s'.byteAt a = s.byteAt a
  phys : ∀ f, (∀ a, A a → s.walk (a / 4096) ≠ some f) → s'.phys f = s.phys f

section
variable {L : Spaces} {s s₁ s' : Vm} {t : TaskStruct} {A B : Nat → Prop} {a b f v n w : Nat}

/-! ## Pages of the process -/

theorem Running.inUse (h : Running L s t) : L s.cur = some s.cr3 := h.sound.inUse t h.task h.live

theorem Running.cur_heap (h : Running L s t) : kHeapStart ≤ s.cur ∧ ∃ f, refs L s (.kernel s.cur) = some f :=
  h.sound.live_ref h.task h.live (part_pcb h.task)

theorem Running.kernelBase_le (h : Running L s t) : kernelBase ≤ s.cur :=
  le_trans (by decide) h.cur_heap.1

theorem Running.own_cur (h : Running L s t) : s.own s.cur := by
  obtain ⟨f, hf⟩ := h.cur_heap.2
  refine ⟨.inr rfl, ?_⟩
  rw [walk_kernel (L := L) h.kernelBase_le, hf]
  simp

theorem Vm.own.lt (hv : s.own v) (h : Running L s t) : v < 0x100000 := by
  rcases hv.1 with hlt | rfl
  · unfold kernelBase at hlt
    omega
  · exact h.page

/-- A page of the user's half, or of the `task_struct`, is referred to. -/
theorem Running.walk (h : Running L s t) : s.walk v = refs L s (if v < kernelBase then .pte s.cur v else .kernel v) := by
  split
  · rename_i hlt
    exact walk_user h.inUse hlt
  · rename_i hge
    exact walk_kernel (Nat.not_lt.1 hge)

/-- The frame of a page of the process is nothing else. -/
theorem Running.plain (h : Running L s t) (hv : s.own v) (hf : s.walk v = some f) : Plain L s f ∧
    ∀ q k u, s.part q (.map k) = some u → refs L s (.kernel u) ≠ some f := by
  rw [h.walk] at hf
  split at hf
  · refine ⟨h.sound.frames.plain_page hf, fun q k u _ hu => ?_⟩
    obtain ⟨p, hc⟩ := h.sound.frames.ok.page_only h.sound.frames.pooled_base hf hu
    cases hc
  · obtain rfl : v = s.cur := hv.1.resolve_left ‹_›
    refine ⟨h.sound.frames.plain_kernel hf fun q hq => ?_, fun q k u hu hfu => ?_⟩
    · obtain ⟨-, hc⟩ := h.sound.part_frame (part_pcb h.task) hf hq
      cases hc
    · have hk := h.sound.frames.ok.kernel_only h.sound.frames.kernel_base h.cur_heap.1 hf hfu
      cases hk
      obtain ⟨-, hc⟩ := h.sound.own q s.cur _ _ _ hu (part_pcb h.task)
      cases hc

/-- A page of the process is on a frame of its own. -/
theorem Running.inj (h : Running L s t) {u : Nat} (hv : s.own v) (he : s.walk v = s.walk u) : v = u := by
  obtain ⟨f, hf⟩ := Option.ne_none_iff_exists'.1 hv.2
  have hf' := he ▸ hf
  rw [h.walk] at hf
  rw [h.walk] at hf'
  split at hf
  · obtain ⟨q, hq⟩ := h.sound.frames.ok.page_only h.sound.frames.pooled_base hf hf'
    split at hq
    · injection hq with _ hq
      exact hq.symm
    · cases hq
  · obtain rfl : v = s.cur := hv.1.resolve_left ‹_›
    have hk := h.sound.frames.ok.kernel_only h.sound.frames.kernel_base h.cur_heap.1 hf hf'
    split at hk
    · cases hk
    · injection hk with hk
      exact hk.symm

/-! ## Changes of bytes -/

theorem Sound.setFrame (h : Sound L s) (hp : Plain L s f)
    (hb : ∀ q k u, s.part q (.map k) = some u → refs L s (.kernel u) ≠ some f) (b : Bytes) : Sound L (s.setPhys f b) := by
  have hst := Stored.setPhys hp b
  have he : Effect L s (s.setPhys f b) (fun _ => False) := by
    refine ⟨hst.rest, rfl, rfl, fun p a v g _ hg => by rw [hst.refs]; exact hg, fun q k u g _ hq hg => ?_,
      fun q u _ => by rw [hst.entries]⟩
    refine phys_setPhys_ne ?_
    rintro rfl
    exact hb q k u hq hg
  refine h.carry he (hst.frames h.frames) (hst.bits h.kernelBits) ?_ fun _ _ hA => hA.elim
  unfold Cow
  rw [hst.entries, hst.refs]
  exact h.cow

theorem Stored.cur (h : Stored L s s') : s'.cur = s.cur := by rw [h.eq]
theorem Stored.tasks (h : Stored L s s') : s'.tasks = s.tasks := by rw [h.eq]
theorem Stored.cr3 (h : Stored L s s') : s'.cr3 = s.cr3 := by rw [h.eq]

theorem Stored.running (h : Stored L s s') (hs : Sound L s') (hr : Running L s t) : Running L s' t :=
  ⟨hs, by rw [h.tasks, h.cur]; exact hr.task, hr.live, by rw [h.cur]; exact hr.page⟩

/-- The pages are the same. -/
theorem Stored.walk (h : Stored L s s') (hs : Sound L s') (hr : Running L s t) : s'.walk v = s.walk v := by
  by_cases hv : v < kernelBase
  · rw [walk_user (h.running hs hr).inUse hv, walk_user hr.inUse hv, h.refs, h.cur]
  · rw [walk_kernel (L := L) (Nat.not_lt.1 hv), walk_kernel (L := L) (Nat.not_lt.1 hv), h.refs]

namespace Pokes

theorem refl (h : Sound L s) (A : Nat → Prop) : Pokes L s s A :=
  ⟨Stored.refl L s, h, fun _ _ _ => rfl, fun _ _ => rfl⟩

theorem running (h : Pokes L s s' A) (hr : Running L s t) : Running L s' t := h.toStored.running h.sound hr

theorem walk (h : Pokes L s s' A) (hr : Running L s t) : s'.walk v = s.walk v := h.toStored.walk h.sound hr

theorem own (h : Pokes L s s' A) (hr : Running L s t) : s'.own v ↔ s.own v := by
  unfold Vm.own
  rw [h.walk hr, h.toStored.cur]

theorem mono (h : Pokes L s s' A) (hAB : ∀ a, A a → B a) : Pokes L s s' B :=
  ⟨h.toStored, h.sound, fun a ha hB => h.byte a ha fun hA => hB (hAB a hA), fun f hf => h.phys f fun a hA => hf a (hAB a hA)⟩

theorem trans (h₁ : Pokes L s s₁ A) (hr : Running L s t) (h₂ : Pokes L s₁ s' A) : Pokes L s s' A where
  toStored := h₁.toStored.trans h₂.toStored
  sound := h₂.sound
  byte a ha hA := by
    rw [h₂.byte a ((h₁.own hr).2 ha) hA, h₁.byte a ha hA]
  phys f hf := by
    rw [h₂.phys f fun a hA => by rw [h₁.walk hr]; exact hf a hA, h₁.phys f hf]

/-- A word none of whose bytes is in `A`. -/
theorem word (h : Pokes L s s' A) (ha : s.own (a / 4096)) (h4 : a % 4 = 0) (hA : ∀ i, i < 4 → ¬ A (a + i)) :
    s'.wordAt a = s.wordAt a := by
  refine le32_congr fun i hi => ?_
  refine h.byte (a + i) ?_ (hA i hi)
  rwa [show (a + i) / 4096 = a / 4096 by omega]

end Pokes

/-- A page gets new contents `c`, which differ from the old ones at addresses in `A` only. -/
theorem Running.poke (h : Running L s t) (hv : s.own v) (hf : s.walk v = some f) {c : Bytes}
    (hc : ∀ o, o < 4096 → ¬ A (4096 * v + o) → c o = s.phys f o) (hA : A a) (hav : a / 4096 = v) :
    Pokes L s (s.setPhys f c) A ∧ ∀ o, o < 4096 → (s.setPhys f c).byteAt (4096 * v + o) = c o := by
  obtain ⟨hp, hm⟩ := h.plain hv hf
  have hst := Stored.setPhys hp c
  have hs := h.sound.setFrame hp hm c
  have hwalk : ∀ u, (s.setPhys f c).walk u = s.walk u := fun u => hst.walk hs h
  have hself : ∀ o, o < 4096 → (s.setPhys f c).byteAt (4096 * v + o) = c o := fun o ho => by
    unfold Vm.byteAt
    rw [hwalk, show (4096 * v + o) / 4096 = v by omega, hf, show (4096 * v + o) % 4096 = o by omega]
    exact congrFun phys_setPhys_self o
  refine ⟨⟨hst, hs, fun b hb hAb => ?_, fun g hg => ?_⟩, hself⟩
  · by_cases hbv : b / 4096 = v
    · obtain ⟨o, ho, rfl⟩ : ∃ o, o < 4096 ∧ b = 4096 * v + o := ⟨b % 4096, by omega, by omega⟩
      rw [hself o ho, hc o ho hAb]
      unfold Vm.byteAt
      rw [show (4096 * v + o) / 4096 = v by omega, hf, show (4096 * v + o) % 4096 = o by omega]
    · unfold Vm.byteAt
      rw [hwalk]
      cases hw : s.walk (b / 4096) with
      | none => rfl
      | some g =>
        have hgf : g ≠ f := by
          rintro rfl
          exact hbv (h.inj hb (hw.trans hf.symm))
        simp only [phys_setPhys_ne hgf]
  · refine phys_setPhys_ne ?_
    rintro rfl
    exact hg a hA (by rw [hav]; exact hf)

/-! ## What a call of the process may touch -/

/-- Apart from pages of the user's half and the page tables, no memory has changed
but the `task_struct` and the bitmap of the running process. What other processes
have in the pages of the user's half has not changed either, but in the frames that
they share with the running one at pages in `U`. -/
structure Within (L : Spaces) (s s' : Vm) (U : Nat → Prop) : Prop where
  rest : Rest s s'
  kernelPte : s'.kernelPte = s.kernelPte
  others : ∀ p v, p ≠ s.cur → entries L s' (.pte p v) = entries L s (.pte p v)
  phys : ∀ v f, refs L s (.kernel v) = some f → (∀ q, L q ≠ some f) → v ≠ s.cur →
    (∀ k, s.part s.cur (.map k) ≠ some v) → s'.phys f = s.phys f
  user : ∀ p v f, p ≠ s.cur → refs L s (.pte p v) = some f → (U v → refs L s (.pte s.cur v) ≠ some f) →
    s'.phys f = s.phys f
  shared : ∀ p v f, p ≠ s.cur → refs L s (.pte p v) = some f → refs L s' (.pte s.cur v) = some f →
    refs L s (.pte s.cur v) = some f

theorem Within.refl (L : Spaces) (s : Vm) (U : Nat → Prop) : Within L s s U :=
  ⟨Rest.refl s, rfl, fun _ _ _ => rfl, fun _ _ _ _ _ _ => rfl, fun _ _ _ _ _ _ => rfl, fun _ _ _ _ _ h => h⟩

theorem Within.refs {U : Nat → Prop} (h : Within L s s' U) {p : Nat} (hp : p ≠ s.cur) :
    refs L s' (.pte p v) = refs L s (.pte p v) := by
  unfold Memory.refs refsOf
  rw [h.others p v hp]

theorem Within.trans {U : Nat → Prop} (h₁ : Within L s s₁ U) (h₂ : Within L s₁ s' U) : Within L s s' U where
  rest := h₁.rest.trans h₂.rest
  kernelPte := h₂.kernelPte.trans h₁.kernelPte
  others p v hp := (h₂.others p v (by rw [h₁.rest.cur]; exact hp)).trans (h₁.others p v hp)
  phys v f hf hq hc hm := by
    have hf₁ : Memory.refs L s₁ (.kernel v) = some f := by
      unfold Memory.refs refsOf entries at hf ⊢
      rwa [h₁.kernelPte]
    rw [h₂.phys v f hf₁ hq (by rw [h₁.rest.cur]; exact hc) fun k => by
      rw [h₁.rest.cur, part_congr h₁.rest.tasks]
      exact hm k, h₁.phys v f hf hq hc hm]
  user p v f hp hf hU := by
    have hf₁ : Memory.refs L s₁ (.pte p v) = some f := by rwa [h₁.refs hp]
    rw [h₂.user p v f (by rw [h₁.rest.cur]; exact hp) hf₁ fun hv hc => ?_, h₁.user p v f hp hf hU]
    rw [h₁.rest.cur] at hc
    exact hU hv (h₁.shared p v f hp hf hc)
  shared p v f hp hf hc := by
    have hf₁ : Memory.refs L s₁ (.pte p v) = some f := by rwa [h₁.refs hp]
    have hs := h₂.shared p v f (by rw [h₁.rest.cur]; exact hp) hf₁ (by rwa [h₁.rest.cur])
    rw [h₁.rest.cur] at hs
    exact h₁.shared p v f hp hf hs

/-- Pages that are shared with nobody do not count. -/
theorem Within.narrow {U V : Nat → Prop} (h : Within L s s' V) (hV : ∀ v, V v → ¬ U v → ∀ p f, p ≠ s.cur →
    Memory.refs L s (.pte p v) = some f → Memory.refs L s (.pte s.cur v) ≠ some f) : Within L s s' U :=
  ⟨h.rest, h.kernelPte, h.others, h.phys, fun p v f hp hf hU => h.user p v f hp hf fun hv => by
    by_cases hu : U v
    · exact hU hu
    · exact hV v hv hu p f hp hf, h.shared⟩

theorem Pokes.within {U : Nat → Prop} (h : Pokes L s s' A) (hr : Running L s t)
    (hA : ∀ a, A a → a / 4096 = s.cur ∨ a / 4096 < kernelBase ∧ U (a / 4096)) : Within L s s' U where
  rest := h.toStored.rest
  kernelPte := h.toStored.kernelPte
  others p v _ := by rw [h.toStored.entries]
  phys v f hf _ hc _ := by
    refine h.phys f fun a ha hw => ?_
    have hcur := hr.cur_heap.1
    rw [hr.walk] at hw
    rcases hA a ha with he | ⟨hlt, -⟩
    · rw [he, if_neg (Nat.not_lt.2 hr.kernelBase_le)] at hw
      have hk := hr.sound.frames.ok.kernel_only hr.sound.frames.kernel_base hcur hw hf
      injection hk with hk
      exact hc hk
    · rw [if_pos hlt] at hw
      obtain ⟨q, hk⟩ := hr.sound.frames.ok.page_only hr.sound.frames.pooled_base hw hf
      cases hk
  user p v f _ hf hU := by
    refine h.phys f fun a ha hw => ?_
    rw [hr.walk] at hw
    rcases hA a ha with he | ⟨hlt, hu⟩
    · rw [he, if_neg (Nat.not_lt.2 hr.kernelBase_le)] at hw
      obtain ⟨q, hk⟩ := hr.sound.frames.ok.page_only hr.sound.frames.pooled_base hf hw
      cases hk
    · rw [if_pos hlt] at hw
      obtain ⟨q, hk⟩ := hr.sound.frames.ok.page_only hr.sound.frames.pooled_base hf hw
      injection hk with _ hv
      rw [hv] at hu hw
      exact hU hu hw
  shared p v f _ _ hc := by rwa [h.toStored.refs] at hc

theorem GotUser.within (hr : Running L s t) (h : GotUser L s s' s.cur v n) (U : Nat → Prop) : Within L s s' U where
  rest := h.rest
  kernelPte := h.kernelPte
  others p u hp := h.page p u hp
  phys u f hf hq _ hm := by
    refine h.phys f _ hf (hr.sound.frames.plain_kernel hf hq) fun k w hw he => ?_
    injection he with he
    exact hm k (he ▸ hw)
  user p u f _ hf _ := h.phys f _ hf (hr.sound.frames.plain_page hf) fun k w _ he => by cases he
  shared p u f _ hf hc := by
    by_cases hu : v ≤ u ∧ u < v + n
    · obtain ⟨g, hg, -, hfree⟩ := h.new u hu.1 hu.2
      obtain ⟨w, hw, rfl⟩ := refs_eq_some.1 hc
      rw [hg] at hw
      rw [← Option.some.inj hw, frame_pgRw] at hf
      exact absurd hf (hfree _)
    · rw [← hc]
      unfold Memory.refs refsOf
      rw [h.other u (by omega)]

theorem FreedUser.within (hr : Running L s t) (h : FreedUser L s s' s.cur v n) (U : Nat → Prop) : Within L s s' U where
  rest := h.rest
  kernelPte := h.kernelPte
  others p u hp := h.page p u hp
  phys u f hf hq _ hm := by
    refine h.phys f _ hf (hr.sound.frames.plain_kernel hf hq) fun k w hw he => ?_
    injection he with he
    exact hm k (he ▸ hw)
  user p u f _ hf _ := h.phys f _ hf (hr.sound.frames.plain_page hf) fun k w _ he => by cases he
  shared p u f _ hf hc := by
    by_cases hu : v ≤ u ∧ u < v + n
    · rw [refs_eq_none.2 (h.gone u hu.1 hu.2)] at hc
      cases hc
    · rw [← hc]
      unfold Memory.refs refsOf
      rw [h.other u (by omega)]

/-! ## The commands -/

theorem storeByte_spec (h : Running L s t) (ha : s.own (a / 4096)) (x : UInt8) :
    ∃ s', storeByte a x s = .ok ((), s') ∧ Pokes L s s' (· = a) ∧ s'.byteAt a = x := by
  obtain ⟨f, hf⟩ := Option.ne_none_iff_exists'.1 ha.2
  obtain ⟨hp, hself⟩ := h.poke (A := (· = a)) (a := a) (c := update (s.phys f) (a % 4096) x) ha hf
    (fun o _ hne => update_of_ne (by omega) ..) rfl rfl
  refine ⟨_, ?_, hp, ?_⟩
  · unfold storeByte
    rw [bind_ok (read_run _ s), hf]
    rfl
  · have hx := hself (a % 4096) (by omega)
    rw [show 4096 * (a / 4096) + a % 4096 = a by omega, update_self] at hx
    exact hx

theorem loadByte_spec (ha : s.own (a / 4096)) : loadByte a s = .ok (s.byteAt a, s) := by
  obtain ⟨f, hf⟩ := Option.ne_none_iff_exists'.1 ha.2
  unfold loadByte Vm.byteAt
  rw [bind_ok (read_run _ s), hf]
  rfl

theorem wordAt_eq (hf : s.walk (a / 4096) = some f) (h4 : a % 4 = 0) : s.wordAt a = le32 (s.phys f) (a % 4096) := by
  refine le32_congr fun i hi => ?_
  unfold Vm.byteAt
  rw [show (a + i) / 4096 = a / 4096 by omega, hf, show (a + i) % 4096 = a % 4096 + i by omega]

theorem loadWord_spec (ha : s.own (a / 4096)) (h4 : a % 4 = 0) : loadWord a s = .ok (s.wordAt a, s) := by
  obtain ⟨f, hf⟩ := Option.ne_none_iff_exists'.1 ha.2
  rw [wordAt_eq hf h4]
  unfold loadWord
  rw [bind_ok (read_run _ s), hf]
  rfl

theorem storeWord_spec (h : Running L s t) (ha : s.own (a / 4096)) (h4 : a % 4 = 0)
    (hw : w < 4294967296) : ∃ s', storeWord a w s = .ok ((), s') ∧ Pokes L s s' (fun b => a ≤ b ∧ b < a + 4) ∧
      s'.wordAt a = w := by
  obtain ⟨f, hf⟩ := Option.ne_none_iff_exists'.1 ha.2
  obtain ⟨hp, -⟩ := h.poke (A := fun b => a ≤ b ∧ b < a + 4) (a := a) (c := putWord (s.phys f) (a % 4096) w) ha hf
    (fun o _ hne => splice_out (by omega)) ⟨le_refl a, by omega⟩ rfl
  refine ⟨_, ?_, hp, ?_⟩
  · unfold storeWord
    rw [bind_ok (read_run _ s), hf]
    rfl
  · rw [wordAt_eq (f := f) (by rw [hp.walk h]; exact hf) h4, phys_setPhys_self]
    exact le32_putWord_self hw

/-- `memset` of a page. -/
theorem zeroPage_spec (h : Running L s t) (hv : s.own v) :
    ∃ s', zeroPage v s = .ok ((), s') ∧ Pokes L s s' (fun b => b / 4096 = v) ∧ ∀ b, b / 4096 = v → s'.byteAt b = 0 := by
  obtain ⟨f, hf⟩ := Option.ne_none_iff_exists'.1 hv.2
  obtain ⟨hp, hself⟩ := h.poke (A := fun b => b / 4096 = v) (a := 4096 * v) (c := zeros) hv hf
    (fun o ho hne => absurd (by omega) hne) (by omega) (by omega)
  refine ⟨_, ?_, hp, fun b hb => ?_⟩
  · unfold zeroPage
    rw [bind_ok (read_run _ s), hf]
    rfl
  · have hx := hself (b % 4096) (by omega)
    rwa [show 4096 * v + b % 4096 = b by omega] at hx

theorem zeroPages_spec : ∀ n v s, Running L s t → (∀ u, v ≤ u → u < v + n → s.own u) →
    ∃ s', zeroPages v n s = .ok ((), s') ∧ Pokes L s s' (fun b => v ≤ b / 4096 ∧ b / 4096 < v + n) ∧
      ∀ b, v ≤ b / 4096 → b / 4096 < v + n → s'.byteAt b = 0 := by
  intro n
  induction n with
  | zero =>
    intro v s h _
    exact ⟨s, rfl, .refl h.sound _, fun b h1 h2 => by omega⟩
  | succ n ih =>
    intro v s h hv
    obtain ⟨s₁, hrun₁, hp₁, hz₁⟩ := zeroPage_spec h (hv v (le_refl v) (by omega))
    obtain ⟨s', hrun, hp, hz⟩ := ih (v + 1) s₁ (hp₁.running h) fun u h1 h2 => (hp₁.own h).2 (hv u (by omega) (by omega))
    refine ⟨s', ?_, (hp₁.mono fun b hb => by omega).trans h (hp.mono fun b hb => by omega), fun b h1 h2 => ?_⟩
    · unfold zeroPages
      rw [bind_ok hrun₁]
      exact hrun
    · by_cases hb : b / 4096 = v
      · rw [hp.byte b ((hp₁.own h).2 (hv _ h1 h2)) (by omega)]
        exact hz₁ b hb
      · exact hz b (by omega) (by omega)

/-- `memset` of a block in a page. -/
theorem zeroBytes_spec : ∀ n b s, Running L s t → (∀ i, i < n → s.own ((b + i) / 4096)) →
    ∃ s', zeroBytes b n s = .ok ((), s') ∧ Pokes L s s' (fun a => b ≤ a ∧ a < b + n) ∧
      ∀ a, b ≤ a → a < b + n → s'.byteAt a = 0 := by
  intro n
  induction n with
  | zero =>
    intro b s h _
    exact ⟨s, rfl, .refl h.sound _, fun a h1 h2 => by omega⟩
  | succ n ih =>
    intro b s h hb
    obtain ⟨s₁, hrun₁, hp₁, hz₁⟩ := storeByte_spec (a := b) h (hb 0 (by omega)) 0
    obtain ⟨s', hrun, hp, hz⟩ := ih (b + 1) s₁ (hp₁.running h) fun i hi => by
      rw [hp₁.own h, show b + 1 + i = b + (i + 1) by omega]
      exact hb (i + 1) (by omega)
    refine ⟨s', ?_, (hp₁.mono fun a ha => by omega).trans h (hp.mono fun a ha => by omega), fun a h1 h2 => ?_⟩
    · unfold zeroBytes
      rw [bind_ok hrun₁]
      exact hrun
    · by_cases hab : a = b
      · rw [hab, hp.byte b ((hp₁.own h).2 (hb 0 (by omega))) (by omega)]
        exact hz₁
      · exact hz a (by omega) (by omega)

end

end Enix.Memory
