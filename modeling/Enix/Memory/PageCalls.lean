import Enix.Memory.Sound

/-!
# `malloc_page`, `mfree_page` and `get_a_page` keep the invariant

For the kernel's half (`Sound.mallocKernel`, `Sound.mfreeKernel`) no process is
changed. For the user's half (`Sound.mallocUser`, `Sound.mfreeUser`,
`Sound.getAPage`) the running process is, and bits and entries meet again at
the end of the call.
-/
set_option autoImplicit false

namespace Enix.Memory
open Enix.Core Enix.Kernel Function

section
variable {L L' : Spaces} {due : Nat → Int} {s s₁ s' : Vm} {u : VirtualAddr} {t : TaskStruct} {r : Ref}
  {a b : Part} {f g p q i j v w n k d : Nat}

/-! ## Pages of the kernel -/

/-- Nothing new refers to a page of a process, and no entry allows more. -/
theorem Cow.mono (h : Cow L s)
    (hp : ∀ p v w, entries L s' (.pte p v) = some w → entries L s (.pte p v) = some w)
    (hr : ∀ r f, refs L s' r = some f → refs L s r = some f ∨ ∀ p v, refs L s (.pte p v) ≠ some f) :
    Cow L s' := by
  intro p v w hw hwr r hrw
  have hold := hp p v w hw
  rcases hr r _ hrw with ho | hno
  · exact h p v w hold hwr r ho
  · exact absurd (refs_eq_some.2 ⟨w, hold, rfl⟩) (hno p v)

theorem NewPages.cow (h : NewPages L s s' v n) (hc : Cow L s) : Cow L s' := by
  refine hc.mono (fun p u w hw => ?_) fun r f hr => ?_
  · rwa [h.other _ fun k hk he => by cases he] at hw
  · by_cases hin : ∃ k, k < n ∧ r = .kernel (v + k)
    · obtain ⟨k, hk, rfl⟩ := hin
      obtain ⟨f', hf', -, hun⟩ := h.fresh k hk
      obtain ⟨w, hw, hwf⟩ := refs_eq_some.1 hr
      rw [hf'] at hw
      cases hw
      rw [frame_pgRw] at hwf
      subst hwf
      exact .inr fun p u => hun _
    · refine .inl ?_
      unfold refs refsOf at hr ⊢
      rwa [h.other r fun k hk he => hin ⟨k, hk, he⟩] at hr

theorem NewPages.effect (h : NewPages L s s' v n) (hs : Sound L s)
    (hph : ∀ g r, refs L s r = some g → s'.phys g = s.phys g)
    (hsz : s'.kernelVaddr.size = s.kernelVaddr.size) : Effect L s s' (fun _ => False) where
  rest := h.rest
  room := hsz
  base := (entries_kernel.1 (h.keeps (entries_kernel.2 ⟨hs.top, rfl⟩))).2
  part _ _ _ _ _ hf := h.keeps_ref hf
  btmp _ _ _ f _ _ hf := hph f _ hf
  page p u _ := h.other _ fun k hk he => by cases he

/-- `malloc_page(PF_KERNEL, n)`. -/
theorem Sound.mallocKernel (h : Sound L s) (hn : 0 < n) (hn' : n < 3840) :
    runs OutOfMemory (mallocPage .kernel n) (fun r s' => (r = none ∧ s' = s) ∨
      ∃ v, r = some v ∧ Sound L s' ∧ NewPages L s s' v n ∧ s'.phys = s.phys) s := by
  refine runs_post (mallocPage_kernel h.frames (fun _ => le_refl 0) h.kernelBits hn hn') ?_
  rintro r s' (⟨rfl, rfl, -⟩ | ⟨i, rfl, -, hf, hk, hnew, hph, hkv⟩)
  · exact .inl ⟨rfl, rfl⟩
  · have he := hnew.effect h (fun g _ _ => by rw [hph]) (by rw [hkv, setRange_size])
    exact .inr ⟨_, rfl, h.carry he hf hk (hnew.cow h.cow) (fun _ _ hA => hA.elim), hnew, hph⟩

/-- `get_kernel_pages(n)`. -/
theorem Sound.getKernelPages (h : Sound L s) (hn : 0 < n) (hn' : n < 3840) :
    runs OutOfMemory (getKernelPages n) (fun r s' =>
      (r = none ∧ s' = s ∧ s.kernelVaddr.scan n = some (-1)) ∨
      ∃ v, r = some v ∧ Sound L s' ∧ GotPages L quits s s' v n) s := by
  refine runs_post (getKernelPages_spec h.frames (fun _ => le_refl 0) h.kernelBits hn hn') ?_
  rintro r s' (hnone | ⟨v, rfl, hg⟩)
  · exact .inl hnone
  · obtain ⟨i, -, -, hkv⟩ := hg.run
    have he := hg.toNewPages.effect h (fun g r hr => hg.phys_used hr) (by rw [hkv, setRange_size])
    exact .inr ⟨v, rfl, h.carry he hg.frames hg.bits (hg.toNewPages.cow h.cow) (fun _ _ hA => hA.elim), hg⟩

theorem LostPages.refs_of (h : LostPages L s s' v n) (hr : refs L s' r = some f) : refs L s r = some f := by
  obtain ⟨w, hw, hwf⟩ := refs_eq_some.1 hr
  refine refs_eq_some.2 ⟨w, ?_, hwf⟩
  rwa [← h.other r fun k hk he => by rw [he, h.gone k hk] at hw; cases hw]

theorem LostPages.keeps (h : LostPages L s s' v n) (hr : refs L s r = some f)
    (hne : ∀ k, k < n → r ≠ .kernel (v + k)) : refs L s' r = some f := by
  unfold refs refsOf at hr ⊢
  rwa [h.other r hne]

theorem LostPages.effect (h : LostPages L s s' v n) (hv : kHeapStart ≤ v)
    (hown : ∀ p a k, k < n → s.part p a ≠ some (v + k))
    (hsz : s'.kernelVaddr.size = s.kernelVaddr.size) : Effect L s s' (fun _ => False) where
  rest := h.rest
  room := hsz
  base := h.pte _ (.inl (by unfold kHeapStart at hv; unfold kernelBase; omega))
  part p a u f hp hf := h.keeps hf fun k hk he => by
    injection he with he
    exact hown p a k hk (he ▸ hp)
  btmp _ _ _ f _ _ hf := by rw [h.phys]
  page p u _ := h.other _ fun k hk he => by cases he

/-- `mfree_page(PF_KERNEL, v, n)` on pages that no process owns. -/
theorem Sound.mfreeKernel (h : Sound L s) (hv : kHeapStart ≤ v) (hn : 1 ≤ n)
    (hp : ∀ k, k < n → present (s.kernelPte (v + k)) = true)
    (hown : ∀ p a k, k < n → s.part p a ≠ some (v + k)) :
    runs (fun _ => False) (mfreePage .kernel v n) (fun _ s' => Sound L s' ∧ LostPages L s s' v n ∧
      s'.kernelVaddr = setRange s.kernelVaddr false (v - kHeapStart) n) s := by
  have hr : KernelRange L s v n := fun k hk => by
    refine ⟨_, refs_kernel.2 ⟨hp k hk, rfl⟩, fun q hq => ?_⟩
    obtain ⟨t, ht, hl, hvd, hd⟩ := h.dir_ref hq
    have hf := h.frames.ok.kernel_only h.frames.kernel_base hvd hd (refs_kernel.2 ⟨hp k hk, rfl⟩)
    injection hf with hf
    exact hown q .dir k hk (by rw [hf]; exact part_dir ht (TaskStruct.live_pgdir hl))
  refine runs_post (mfreePage_kernel h.frames (fun _ => le_refl 0) h.kernelBits hv hn hr) ?_
  rintro - s' ⟨hf, hk, hl, hkv⟩
  have he := hl.effect hv hown (by rw [hkv, setRange_size])
  refine ⟨h.carry he hf hk (h.cow.mono (fun p u w hw => ?_) fun r f hr => .inl (hl.refs_of hr))
    (fun _ _ hA => hA.elim), hl, hkv⟩
  rwa [hl.other _ fun k hk he => by cases he] at hw

/-! ## Pages of the running process -/

/-- The pages of a bitmap are plain. -/
theorem Sound.map_plain (h : Sound L s) (hp : s.part p (.map k) = some v) (hf : refs L s (.kernel v) = some f) :
    Plain L s f :=
  h.frames.plain_kernel hf fun q hq => by
    obtain ⟨-, hc⟩ := h.part_frame hp hf hq
    cases hc

theorem SetBits.effect {c : Bitmap} (hb : SetBits L s s' t.userprogVaddr c) (h : Sound L s)
    (ht : s.tasks p = some t) (hl : t.live = true) : Effect L s s' (· = p) where
  rest := hb.rest
  room := by rw [hb.kernelVaddr]
  base := by rw [hb.kernelPte]
  part _ _ _ _ _ hf := by rwa [hb.refs]
  btmp q k v f hq hp hf := by
    refine hb.phys f fun j hj hfj => ?_
    have hu := h.user p t ht hl
    have hpj := part_map ht hl (hu.pages_lt hj)
    obtain ⟨hvj, -⟩ := h.part_ref hpj fun hc => by cases hc.2
    have hk := h.frames.ok.kernel_only h.frames.kernel_base hvj hfj hf
    cases hk
    exact hq (h.own q p _ _ _ hp hpj).1
  page q v _ := by rw [hb.entries]

theorem Grows.page_ne {X : Nat → Prop} (hg : Grows L s s' p X) (hq : q ≠ p ∨ ¬ X v) :
    entries L s' (.pte q v) = entries L s (.pte q v) := by
  cases hs : entries L s (.pte q v) with
  | some w => exact hg.keeps _ w hs
  | none =>
    cases hs' : entries L s' (.pte q v) with
    | none => rfl
    | some w =>
      rcases hg.new _ w hs' with ho | ⟨u, hu, he⟩ | ⟨i, g, he, -⟩
      · rw [hs] at ho
        cases ho
      · cases he
        rcases hq with hne | hX
        · exact absurd rfl hne
        · exact absurd hu hX
      · cases he

theorem Grows.effect {X : Nat → Prop} (hg : Grows L s s' p X)
    (hm : ∀ q k v f, s.part q (.map k) = some v → refs L s (.kernel v) = some f → Plain L s f) :
    Effect L s s' (· = p) where
  rest := hg.rest
  room := by rw [hg.kernelVaddr]
  base := by rw [hg.kernelPte]
  part _ _ _ _ _ hf := hg.keeps_ref hf
  btmp q k v f _ hp hf := hg.phys f _ hf (hm q k v f hp hf)
  page q v hq := hg.page_ne (.inl hq)

/-- New pages on unused frames are not shared. -/
theorem Grows.cow {X : Nat → Prop} (hg : Grows L s s' p X) (hc : Cow L s) (h' : Frames L due s')
    (hX : ∀ v w, X v → entries L s' (.pte p v) = some w → ∀ r, refs L s r ≠ some (w / 4096)) : Cow L s' := by
  intro q v w hw hwr r hr
  obtain ⟨w', hw', hwf⟩ := refs_eq_some.1 hr
  rcases hg.new _ w hw with ho | ⟨u, hu, he⟩ | ⟨i, g, he, -⟩
  · -- an old page: what is new refers to other frames
    have hold := refs_eq_some.2 ⟨w, ho, rfl⟩
    rcases hg.new r w' hw' with ho' | ⟨u, hu, rfl⟩ | ⟨i, g, -, rfl, -, hun⟩
    · exact hc q v w ho hwr r (refs_eq_some.2 ⟨w', ho', hwf⟩)
    · exact absurd hold (hwf ▸ hX u w' hu hw' _)
    · rw [frame_pgRw] at hwf
      exact absurd hold (hwf ▸ hun _)
  · -- a new page: only pages at the same address share its frame
    cases he
    have hfr := hX v w hu hw
    have hrw := refs_eq_some.2 ⟨w, hw, rfl⟩
    obtain ⟨q, rfl⟩ := h'.ok.page_only h'.pooled_base hrw hr
    by_cases hq : q = p
    · rw [hq]
    · rw [hg.page_ne (.inl hq)] at hw'
      exact absurd (refs_eq_some.2 ⟨w', hw', hwf⟩) (hfr _)
  · cases he

/-- What a call on the user half can be refused with. -/
def Refused (l : List Site) (x : Stop) : Prop := OutOfMemory x ∨ ∃ a ∈ l, x = .assertion a

/-- Pages `v` to `v + n - 1` of process `p` are new. -/
structure GotUser (L : Spaces) (s s' : Vm) (p v n : Nat) : Prop extends Effect L s s' (· = p) where
  start : userVaddrStart ≤ v
  last : v + n ≤ kernelBase
  old : ∀ u, v ≤ u → u < v + n → entries L s (.pte p u) = none
  new : ∀ u, v ≤ u → u < v + n → ∃ f, entries L s' (.pte p u) = some (f * 4096 + pgRw) ∧
    s.Holds .user f ∧ ∀ r, refs L s r ≠ some f
  other : ∀ u, u < v ∨ v + n ≤ u → entries L s' (.pte p u) = entries L s (.pte p u)
  kernelPte : s'.kernelPte = s.kernelPte
  phys : ∀ g r, refs L s r = some g → Plain L s g → (∀ k u, s.part p (.map k) = some u → r ≠ .kernel u) →
    s'.phys g = s.phys g

theorem SetBits.map_plain {c : Bitmap} (hb : SetBits L s s₁ u c) (h : Sound L s) :
    ∀ q k v f, s₁.part q (.map k) = some v → refs L s₁ (.kernel v) = some f → Plain L s₁ f := by
  intro q k v f hp hf
  rw [part_congr hb.rest.tasks] at hp
  rw [hb.refs] at hf
  exact hb.plain (h.map_plain hp hf)

/-- New pages are on frames that no bitmap has. -/
theorem Grows.btmp {X : Nat → Prop} (hg : Grows L s s' p X) (h : Frames L due s) (hb : BtmpOk L s u) :
    BtmpOk L s' u ∧ ∀ j, j ≤ 8 * u.btmpBytesLen → (s'.btmp u).bit j = (s.btmp u).bit j := by
  refine ⟨⟨hb.heap, fun k hk => ?_⟩, fun j hj => ?_⟩
  · obtain ⟨f, hf, hd⟩ := hb.pages k hk
    exact ⟨f, hg.keeps_ref hf, hd⟩
  · unfold Bitmap.bit
    rw [btmp_congr hb (fun k f hk hf => ⟨hg.keeps_ref hf, hg.phys f _ hf ?_⟩) (by omega)]
    obtain ⟨g, hg', hpl⟩ := hb.frame h hk
    rw [hf] at hg'
    cases hg'
    exact hpl

/-- Bits are reserved, then the pages are mapped. -/
theorem Sound.grow {X : Nat → Prop} {c : Bitmap} (h : Sound L s) (ht : s.tasks p = some t)
    (hl : t.live = true) (hb : SetBits L s s₁ t.userprogVaddr c) (hg : Grows L s₁ s' p X) :
    Effect L s s' (· = p) ∧ BtmpOk L s' t.userprogVaddr ∧
      (∀ j, j ≤ 8 * userBtmpLen → (s'.btmp t.userprogVaddr).bit j = c.bit j) ∧
      ∀ g r, refs L s r = some g → Plain L s g → (∀ k u, s.part p (.map k) = some u → r ≠ .kernel u) →
        s'.phys g = s.phys g := by
  have hu := h.user p t ht hl
  have he₁ := hb.effect h ht hl
  have he₂ := hg.effect (hb.map_plain h)
  obtain ⟨hb', hbit⟩ := hg.btmp (hb.frames h.frames) (hu.toBtmpOk.stored hb.toStored)
  have hlen := hu.len
  refine ⟨he₁.trans he₂, hb', fun j hj => ?_, fun g r hr hpl hne => ?_⟩
  · rw [hbit j (by omega), hb.bit j (by omega)]
  · rw [hg.phys g r (by rwa [hb.refs]) (hb.plain hpl)]
    refine hb.phys g fun k hk hgk => ?_
    have hp := part_map ht hl (hu.pages_lt hk)
    obtain ⟨hv, -⟩ := h.part_ref hp fun hc => by cases hc.2
    exact hne k _ hp (h.frames.ok.kernel_only h.frames.kernel_base hv hgk hr)

/-- `malloc_page(PF_USER, n)` of the running process: bits are reserved, then the
pages are mapped. -/
theorem mallocUser_spec (h : Frames L quits s) (ht : s.tasks s.cur = some t) (hL : L s.cur = some s.cr3)
    (hu : UserSpace L s s.cur t.userprogVaddr) (htop : present (s.kernelPte kernelBase) = true) (n : Nat) :
    runs (fun x => Refused [.mallocPage, .vaddrGet, .pageTableAdd] x ∧
        (n < 3840 ∧ Fits (s.btmp t.userprogVaddr) n → OutOfMemory x)) (mallocPage .user n) (fun r s' =>
      (r = none ∧ s' = s ∧ ¬ Fits (s.btmp t.userprogVaddr) n) ∨
        ∃ i s₁, r = some (userVaddrStart + i) ∧ userVaddrStart + i + n ≤ kernelBase ∧ (0 < n ∧ Frames L quits s') ∧
          (∀ w, userVaddrStart + i ≤ w → w < userVaddrStart + i + n → entries L s (.pte s.cur w) = none) ∧
          SetBits L s s₁ t.userprogVaddr (setRange (s.btmp t.userprogVaddr) true i n) ∧
          Grows L s₁ s' s.cur (fun w => userVaddrStart + i ≤ w ∧ w < userVaddrStart + i + n) ∧
          ∀ w, userVaddrStart + i ≤ w → w < userVaddrStart + i + n → ∃ f,
            entries L s' (.pte s.cur w) = some (f * 4096 + pgRw) ∧ s₁.Holds .user f ∧ ∀ r, refs L s₁ r ≠ some f) s := by
  have hlast := userVaddrStart_add
  unfold mallocPage
  refine runs_guard_bind (fun hn => ⟨.inr ⟨_, by simp, rfl⟩, fun hf => absurd ⟨hf.2.1, hf.1⟩ hn⟩) fun hn => ?_
  refine runs_seq (runs_mono (vaddrGet_user h rfl ht hu n) ?_ fun _ _ hq => hq) ?_
  · rintro x ⟨rfl | rfl, hno⟩
    · exact ⟨.inl (.inl rfl), fun hf => absurd hf.2 hno⟩
    · exact ⟨.inr ⟨_, by simp, rfl⟩, fun hf => absurd hf.2 hno⟩
  rintro r s₁ (⟨rfl, rfl, hno⟩ | ⟨i, rfl, hle, hlt, hlow, hclear, hb⟩)
  · exact .inl ⟨rfl, rfl, hno⟩
  have hold : ∀ w, userVaddrStart + i ≤ w → w < userVaddrStart + i + n →
      entries L s (.pte s.cur w) = none := by
    intro w h1 h2
    have := hu.bit_clear hL (hclear (w - userVaddrStart) (by omega) (by omega)) (by omega)
    rwa [show userVaddrStart + (w - userVaddrStart) = w by omega] at this
  simp only
  refine runs_seq (runs_mono (mapPages_user (p := s.cur) (fun _ => le_refl 0) n (userVaddrStart + i) s₁
    (hb.frames h) (by rw [hb.rest.cr3]; exact hL) ?_ fun w h1 h2 => ?_) ?_ fun _ _ hq => hq) ?_
  · rw [hb.kernelPte]
    by_cases hc : userVaddrStart + i + n ≤ kernelBase
    · exact .inl hc
    · exact .inr ⟨by omega, by omega, htop⟩
  · rw [hb.entries]
    exact hold w h1 h2
  · rintro x (hx | ⟨rfl, hend⟩)
    · exact ⟨.inl hx, fun _ => hx⟩
    · refine ⟨.inr ⟨_, by simp, rfl⟩, fun hf => ?_⟩
      have hi := hlow hf.2
      omega
  rintro - s' ⟨rfl, hlast', hf, hg, hnew⟩
  simp only [if_true, runs_pure]
  exact .inr ⟨i, s₁, rfl, hlast', ⟨hn.1, hf⟩, hold, hb, hg, hnew⟩

theorem Sound.mallocUser (h : Sound L s) (ht : s.tasks s.cur = some t) (hl : t.live = true) (n : Nat) :
    runs (fun x => Refused [.mallocPage, .vaddrGet, .pageTableAdd] x ∧
        (n < 3840 ∧ Fits (s.btmp t.userprogVaddr) n → OutOfMemory x)) (mallocPage .user n) (fun r s' =>
      (r = none ∧ Sound L s' ∧ s' = s ∧ ¬ Fits (s.btmp t.userprogVaddr) n) ∨
        ∃ v, r = some v ∧ Sound L s' ∧ GotUser L s s' s.cur v n) s := by
  have hu := h.user _ t ht hl
  refine runs_post (mallocUser_spec h.frames ht (h.inUse t ht hl) hu h.top n) ?_
  rintro r s' (⟨rfl, rfl, hno⟩ | ⟨i, s₁, rfl, hlast, ⟨-, hf⟩, hold, hb, hg, hnew⟩)
  · exact .inl ⟨rfl, h, rfl, hno⟩
  obtain ⟨he, hb', hbit, hph⟩ := h.grow ht hl hb hg
  have hrefs := hb.refs
  have hpage : ∀ w, userVaddrStart + i ≤ w → w < userVaddrStart + i + n → ∃ f,
      entries L s' (.pte s.cur w) = some (f * 4096 + pgRw) ∧ s.Holds .user f ∧ ∀ r, refs L s r ≠ some f := by
    intro w h1 h2
    obtain ⟨f, hfw, hff, hun⟩ := hnew w h1 h2
    exact ⟨f, hfw, by rwa [hb.rest.holds] at hff, by rwa [hrefs] at hun⟩
  have hother : ∀ w, w < userVaddrStart + i ∨ userVaddrStart + i + n ≤ w →
      entries L s' (.pte s.cur w) = entries L s (.pte s.cur w) := by
    intro w hw
    rw [hg.page_ne (.inr (by omega)), hb.entries]
  have hus : UserSpace L s' s.cur t.userprogVaddr := by
    refine hu.range hb' (fun j hj => hbit j (by omega)) (fun w h1 h2 => ?_) hother
    obtain ⟨f, hfw, -⟩ := hpage w h1 h2
    rw [hfw]
    simp
  have hcow : Cow L s' := by
    refine hg.cow (h.cow.mono (fun q w x hx => by rwa [hb.entries] at hx)
      fun r f hr => .inl (by rwa [hrefs] at hr)) hf fun w x hw hx => ?_
    obtain ⟨f, hfw, -, hun⟩ := hpage w hw.1 hw.2
    rw [hfw] at hx
    cases hx
    rw [frame_pgRw, hrefs]
    exact hun
  have hbits : KernelBits s' := ⟨by rw [hg.kernelPte, hg.kernelVaddr]; exact (hb.bits h.kernelBits).set,
    by rw [hg.kernelPte, hg.kernelVaddr]; exact (hb.bits h.kernelBits).mapped⟩
  refine .inr ⟨_, rfl, h.carry he hf hbits hcow (fun q t' hq ht' _ => ?_), he, by omega, hlast, hold, hpage,
    hother, by rw [hg.kernelPte, hb.kernelPte], hph⟩
  subst hq
  rw [ht] at ht'
  cases ht'
  exact hus

/-! ## Giving back pages of the running process -/

theorem LostUser.plain (hl : LostUser L s s' p v n) (hp : Plain L s f) : Plain L s' f :=
  ⟨hp.1, fun q i hi => hp.2 q i (by
    unfold refs refsOf at hi ⊢
    rwa [hl.other _ fun u _ _ he => by cases he] at hi)⟩

theorem LostUser.refs_of (hl : LostUser L s s' p v n) (hr : refs L s' r = some f) : refs L s r = some f := by
  obtain ⟨w, hw, hwf⟩ := refs_eq_some.1 hr
  refine refs_eq_some.2 ⟨w, ?_, hwf⟩
  rwa [← hl.other r fun u h1 h2 he => by rw [he, hl.gone u h1 h2] at hw; cases hw]

theorem LostUser.kernel (hl : LostUser L s s' p v n) (u : Nat) :
    refs L s' (.kernel u) = refs L s (.kernel u) := by
  unfold refs refsOf
  rw [hl.other _ fun w _ _ he => by cases he]

theorem LostUser.effect (hl : LostUser L s s' p v n) (h : Sound L s) : Effect L s s' (· = p) where
  rest := hl.rest
  room := by rw [hl.kernelVaddr]
  base := by rw [hl.kernelPte]
  part _ _ u _ _ hf := by rwa [hl.kernel]
  btmp q k u f _ hp hf := hl.phys f (h.map_plain hp hf)
  page q u hq := hl.other _ fun w _ _ he => by
    injection he with he
    exact hq he

/-- The frames of the pages are all in the pool of the first. -/
def OnePool (L : Spaces) (s : Vm) (p v n : Nat) : Prop := ∀ u f f₀, v ≤ u → u < v + n →
  refs L s (.pte p v) = some f₀ → refs L s (.pte p u) = some f → inUserPool s f = inUserPool s f₀

/-- Pages `v` to `v + n - 1` of process `p` are gone. -/
structure FreedUser (L : Spaces) (s s' : Vm) (p v n : Nat) : Prop extends Effect L s s' (· = p) where
  gone : ∀ u, v ≤ u → u < v + n → entries L s' (.pte p u) = none
  other : ∀ u, u < v ∨ v + n ≤ u → entries L s' (.pte p u) = entries L s (.pte p u)
  kernelPte : s'.kernelPte = s.kernelPte
  phys : ∀ g r, refs L s r = some g → Plain L s g → (∀ k u, s.part p (.map k) = some u → r ≠ .kernel u) →
    s'.phys g = s.phys g

/-- A frame of the pools is in one of them. -/
theorem Books.inKernelPool {e : Ref → Option Nat} (h : Books L due s e) (hf : s.Pooled f) :
    inKernelPool s f = !inUserPool s f := by
  have hb := h.base
  have hr := (h.range hf).1
  unfold Memory.inKernelPool inUserPool
  by_cases hu : s.userPool.phyAddrStart ≤ f
  · rw [decide_eq_true hu, decide_eq_false (by omega)]
    rfl
  · rw [decide_eq_false hu, decide_eq_true (by omega)]
    rfl

/-- `mfree_page(PF_USER, v, n)` on pages of the running process: it stops when
they are in both pools, and only then. -/
theorem Sound.mfreeUser (h : Sound L s) (ht : s.tasks s.cur = some t) (hl : t.live = true) (hn : 1 ≤ n)
    (hp : ∀ u, v ≤ u → u < v + n → ∃ f, refs L s (.pte s.cur u) = some f) :
    runs (fun x => x = .assertion .mfreePage ∧ ¬ OnePool L s s.cur v n) (mfreePage .user v n)
      (fun _ s' => Sound L s' ∧ FreedUser L s s' s.cur v n ∧ OnePool L s s.cur v n) s := by
  have hL := h.inUse t ht hl
  have hu := h.user _ t ht hl
  have hend := userVaddrStart_add
  obtain ⟨f₀, hf₀⟩ := hp v (le_refl v) (by omega)
  have hlow : 0x102 ≤ f₀ := by
    have := (h.frames.range (h.frames.ok.home _ _ hf₀)).1
    unfold memBase at this
    omega
  have hstart : userVaddrStart ≤ v := hu.above v fun hc => by
    rw [refs_eq_none.2 hc] at hf₀
    cases hf₀
  have hstop : v + n ≤ kernelBase := by
    obtain ⟨f, hf⟩ := hp (v + n - 1) (by omega) (by omega)
    have := page_lt hL hf
    omega
  unfold mfreePage
  rw [runs_bind_ok (guard_run hn _ s), runs_bind_ok (addrV2p_user hL (page_lt hL hf₀) hf₀),
    runs_bind_ok (guard_run hlow _ s), runs_read_bind, id]
  have hloop : runs (fun x => x = .assertion .mfreePage ∧ ¬ OnePool L s s.cur v n)
      (if inUserPool s f₀ = true then freePages inUserPool v n else freePages inKernelPool v n)
      (fun _ s₁ => Frames L quits s₁ ∧ LostUser L s s₁ s.cur v n ∧ OnePool L s s.cur v n) s := by
    by_cases hf : inUserPool s f₀ = true
    · rw [if_pos hf]
      refine runs_mono (freePages_user byPool_user (fun _ => le_refl 0) n v s h.frames hL hp) ?_ ?_
      · rintro x ⟨rfl, u, f, h1, h2, hfu, hbad⟩
        refine ⟨rfl, fun hone => ?_⟩
        rw [hone u f f₀ h1 h2 hf₀ hfu, hf] at hbad
        cases hbad
      · rintro - s₁ ⟨hfr, hlost, hall⟩
        refine ⟨hfr, hlost, fun u f f₁ h1 h2 hf₁ hfu => ?_⟩
        rw [hf₀] at hf₁
        cases hf₁
        rw [hall u f h1 h2 hfu, hf]
    · rw [if_neg hf]
      have hf' : inUserPool s f₀ = false := by simpa using hf
      refine runs_mono (freePages_user byPool_kernel (fun _ => le_refl 0) n v s h.frames hL hp) ?_ ?_
      · rintro x ⟨rfl, u, f, h1, h2, hfu, hbad⟩
        refine ⟨rfl, fun hone => ?_⟩
        rw [h.frames.inKernelPool (h.frames.ok.home _ _ hfu), hone u f f₀ h1 h2 hf₀ hfu, hf'] at hbad
        cases hbad
      · rintro - s₁ ⟨hfr, hlost, hall⟩
        refine ⟨hfr, hlost, fun u f f₁ h1 h2 hf₁ hfu => ?_⟩
        rw [hf₀] at hf₁
        cases hf₁
        have hk := hall u f h1 h2 hfu
        rw [h.frames.inKernelPool (h.frames.ok.home _ _ hfu)] at hk
        rw [hf']
        simpa using hk
  refine runs_ite_seq hloop ?_
  rintro - s₁ ⟨hfr, hlost, hone⟩
  have ht₁ : s₁.tasks s.cur = some t := by rw [hlost.rest.tasks]; exact ht
  have hb₁ : BtmpOk L s₁ t.userprogVaddr := ⟨hu.heap, fun k hk => by rw [hlost.kernel]; exact hu.pages k hk⟩
  refine runs_mono (vaddrRemove_user (v := v) (n := n) hfr hlost.rest.cur ht₁ hb₁ (by rw [hu.start]; exact hstart)
    (by rw [hu.start, hu.len]; omega)) (fun _ hE => hE.elim) ?_
  intro _ s' hb
  have he₁ := hlost.effect h
  have hbit : ∀ j, j < 8 * userBtmpLen → (s'.btmp t.userprogVaddr).bit j =
      (setRange (s.btmp t.userprogVaddr) false (v - userVaddrStart) n).bit j := by
    intro j hj
    have hlen := hu.len
    rw [hb.bit j (by omega), hu.start, bit_setRange, bit_setRange]
    by_cases hr : v - userVaddrStart ≤ j ∧ j < v - userVaddrStart + n
    · rw [if_pos hr, if_pos hr]
    · rw [if_neg hr, if_neg hr]
      unfold Bitmap.bit
      rw [btmp_congr hu.toBtmpOk (fun k f hk hf => ⟨by rw [hlost.kernel]; exact hf, hlost.phys f ?_⟩) (by omega)]
      exact h.map_plain (part_map ht hl (hu.pages_lt hk)) hf
  have hother : ∀ u, u < v ∨ v + n ≤ u → entries L s' (.pte s.cur u) = entries L s (.pte s.cur u) := by
    intro u hu'
    rw [hb.entries, hlost.other _ fun w h1 h2 he => by injection he; omega]
  have hgone : ∀ u, v ≤ u → u < v + n → entries L s' (.pte s.cur u) = none := by
    intro u h1 h2
    rw [hb.entries]
    exact hlost.gone u h1 h2
  have hus : UserSpace L s' s.cur t.userprogVaddr := by
    refine hu.range (x := false) (hb₁.stored hb.toStored) hbit (fun u h1 h2 => ?_) fun u hu' => hother u (by omega)
    rw [hgone u (by omega) (by omega)]
    simp
  have hne : ∀ q k u f, q ≠ s.cur → s.part q (.map k) = some u → refs L s (.kernel u) = some f →
      ∀ j, j ≤ t.userprogVaddr.btmpBytesLen / 4096 → refs L s (.kernel (t.userprogVaddr.bits + j)) ≠ some f := by
    intro q k u f hq hpq hfu j hj hfj
    have hpj := part_map ht hl (hu.pages_lt hj)
    obtain ⟨hvj, -⟩ := h.part_ref hpj fun hc => by cases hc.2
    have hk := h.frames.ok.kernel_only h.frames.kernel_base hvj hfj hfu
    cases hk
    exact hq (h.own q s.cur _ _ _ hpq hpj).1
  have he : Effect L s s' (· = s.cur) := by
    refine ⟨hlost.rest.trans hb.rest, by rw [hb.kernelVaddr, hlost.kernelVaddr],
      by rw [hb.kernelPte, hlost.kernelPte], fun p a u f hpa hf => by rw [hb.refs, hlost.kernel]; exact hf,
      fun q k u f hq hpq hf => ?_, fun q u hq => by rw [hb.entries]; exact he₁.page q u hq⟩
    rw [hb.phys f fun j hj => by rw [hlost.kernel]; exact hne q k u f hq hpq hf j hj]
    exact hlost.phys f (h.map_plain hpq hf)
  have hbits : KernelBits s' := ⟨by rw [hb.kernelPte, hb.kernelVaddr, hlost.kernelPte, hlost.kernelVaddr]; exact h.kernelBits.set,
    by rw [hb.kernelPte, hb.kernelVaddr, hlost.kernelPte, hlost.kernelVaddr]; exact h.kernelBits.mapped⟩
  have hcow : Cow L s' := h.cow.mono (fun q u w hw => by
      rw [hb.entries] at hw
      rwa [hlost.other _ fun u' h1 h2 he => by rw [he, hlost.gone u' h1 h2] at hw; cases hw] at hw)
    fun r f hr => .inl (hlost.refs_of (by rwa [hb.refs] at hr))
  refine ⟨h.carry he (hb.frames hfr) hbits hcow (fun q t' hq ht' _ => ?_),
    ⟨he, hgone, hother, by rw [hb.kernelPte, hlost.kernelPte], fun g r hr hpl hne' => ?_⟩, hone⟩
  · subst hq
    rw [ht] at ht'
    cases ht'
    exact hus
  · rw [hb.phys g fun j hj => ?_, hlost.phys g hpl]
    rw [hlost.kernel]
    intro hgj
    have hpj := part_map ht hl (hu.pages_lt hj)
    obtain ⟨hvj, -⟩ := h.part_ref hpj fun hc => by cases hc.2
    exact hne' j _ hpj (h.frames.ok.kernel_only h.frames.kernel_base hvj hgj hr)

/-! ## One page at an address of the caller's choice -/

/-- A page that is there is not mapped again. -/
theorem pageTableAdd_present (hp : present (s.pde v) = true) (ht : present (s.pte v) = true) (f flag : Nat) :
    pageTableAdd v f flag s = .error (.assertion .pageTableAdd) := by
  unfold pageTableAdd
  rw [bind_ok (read_run _ s), if_pos hp, bind_ok (read_run _ s)]
  exact bind_error (guard_stop (not_not.2 ht) _ s)

/-- The bit of a page of the user's half. -/
theorem bitIdx_user (hv : v < 0x100000) (hi : bitIdx v userVaddrStart < 8 * userBtmpLen) :
    v = userVaddrStart + bitIdx v userVaddrStart ∧ v < kernelBase := by
  have hb : 8 * userBtmpLen = 753592 := by decide
  unfold bitIdx at hi ⊢
  rw [hb] at hi
  unfold userVaddrStart kernelBase at *
  omega

/-- The bit of a page of the kernel's heap. -/
theorem bitIdx_kernel (hv : v < 0x100000) (hi : bitIdx v kHeapStart < 0x3FF00) :
    v = kHeapStart + bitIdx v kHeapStart := by
  unfold bitIdx kHeapStart at *
  omega

theorem entries_claim : entries L (s.claim f) = entries L s := entries_rest (Vm.SameRest.claim s f)

/-- The stops of `get_a_page(PF_USER, v)` of process `p`. -/
def PageStop (L : Spaces) (s : Vm) (p v : Nat) (x : Stop) : Prop :=
  OutOfMemory x ∨ x = .assertion .getAPage ∧ bitIdx v userVaddrStart = 0 ∨
    x = .assertion .pageTableAdd ∧ entries L s (.pte p v) ≠ none

/-- `get_a_page(PF_USER, v)` of a process. -/
theorem Sound.getAPageUser (h : Sound L s) (ht : s.tasks s.cur = some t) (hl : t.live = true)
    (hv : v < 0x100000) : runs (PageStop L s s.cur v) (getAPage .user v)
      (fun r s' => r = some v ∧ Sound L s' ∧ GotUser L s s' s.cur v 1) s := by
  have hL := h.inUse t ht hl
  have hu := h.user _ t ht hl
  have hpg : t.pgdir ≠ 0 ∧ PoolFlags.user = .user := ⟨TaskStruct.live_pgdir hl, rfl⟩
  unfold getAPage reservePage
  rw [runs_bind, runs_bind_ok (runningThread_run rfl ht), if_pos hpg, hu.start]
  have hzero : bitIdx v userVaddrStart = 0 → PageStop L s s.cur v (.assertion .getAPage) := fun hz =>
    .inr (.inl ⟨rfl, hz⟩)
  have hrange : bitIdx v userVaddrStart < 8 * userBtmpLen → v = userVaddrStart + bitIdx v userVaddrStart ∧
    v < kernelBase := bitIdx_user hv
  generalize bitIdx v userVaddrStart = i at *
  refine runs_guard_bind (fun hz => hzero (Nat.eq_zero_of_not_pos hz)) fun _ => ?_
  refine runs_guard_bind (fun _ => .inl (.inr rfl)) fun hi => ?_
  rw [hu.len] at hi
  obtain ⟨hvi, hvk⟩ := hrange hi
  refine runs_mono (setBtmp_spec h.frames hu.toBtmpOk (by rw [hu.len]; omega)) (fun _ hE => hE.elim) ?_
  intro _ s₁ hb
  have hf₁ := hb.frames h.frames
  have hL₁ : L s.cur = some s₁.cr3 := by rw [hb.rest.cr3]; exact hL
  refine runs_seq (runs_mono (palloc_spec hf₁) (fun _ => .inl) fun _ _ hq => hq) ?_
  rintro _ _ ⟨f, rfl, hf, hbit, hcell, rfl⟩
  have hpool := Vm.holds_pooled hf
  simp only
  have hL₂ : L s.cur = some (s₁.claim f).cr3 := by rw [(Vm.SameRest.claim s₁ f).cr3]; exact hL₁
  cases hold : entries L s (.pte s.cur v) with
  | some w =>
    have hw : entries L (s₁.claim f) (.pte s.cur v) = some w := by rw [entries_claim, hb.entries, hold]
    obtain ⟨h1, h2, -⟩ := (entries_pte_user hL₂ hvk).1 hw
    rw [runs_bind]
    unfold runs
    rw [pageTableAdd_present h1 h2]
    exact .inr (.inr ⟨rfl, by rw [hold]; simp⟩)
  | none =>
    have hun := hf₁.unused (fun _ => le_refl 0) hpool hbit
    refine runs_seq (runs_mono (claimPage_user hf₁ (fun _ => le_refl 0) hL₁ hvk (by rw [hb.entries, hold])
      hpool hbit hcell) (fun _ => .inl) fun _ _ hq => hq) ?_
    rintro - s' ⟨hf', hg, hpage⟩
    obtain ⟨he, hb', hbits', hph⟩ := h.grow ht hl hb hg
    have hunS : ∀ r, refs L s r ≠ some f := by
      intro r hr
      exact hun r (by rw [← hb.refs] at hr; exact hr)
    have hother : ∀ w, w < v ∨ v + 1 ≤ w → entries L s' (.pte s.cur w) = entries L s (.pte s.cur w) := by
      intro w hw
      rw [hg.page_ne (.inr (by omega)), hb.entries]
    have hus : UserSpace L s' s.cur t.userprogVaddr := by
      refine hu.range (x := true) (i := i) (n := 1) hb' (fun j hj => ?_) (fun w h1 h2 => ?_)
        fun w hw => hother w (by omega)
      · rw [hbits' j (by omega)]
        rfl
      · rw [show w = v by omega, hpage]
        simp
    have hcow : Cow L s' := by
      refine hg.cow (h.cow.mono (fun q w x hx => by rwa [hb.entries] at hx)
        fun r f hr => .inl (by rwa [hb.refs] at hr)) hf' fun w x hw hx => ?_
      subst hw
      rw [hpage] at hx
      cases hx
      rw [frame_pgRw]
      exact hun
    have hkb : KernelBits s' := ⟨by rw [hg.kernelPte, hg.kernelVaddr]; exact (hb.bits h.kernelBits).set,
      by rw [hg.kernelPte, hg.kernelVaddr]; exact (hb.bits h.kernelBits).mapped⟩
    rw [runs_pure]
    refine ⟨rfl, h.carry he hf' hkb hcow (fun q t' hq ht' _ => ?_), he, by omega, by omega, fun w h1 h2 => ?_,
      fun w h1 h2 => ?_, hother, by rw [hg.kernelPte, hb.kernelPte], hph⟩
    · subst hq
      rw [ht] at ht'
      cases ht'
      exact hus
    · rw [show w = v by omega]
      exact hold
    · rw [show w = v by omega]
      exact ⟨f, hpage, by rwa [hb.rest.holds] at hf, hunS⟩

/-- `get_a_page(PF_KERNEL, v)` of a thread of the kernel. -/
theorem Sound.getAPageKernel (h : Sound L s) (ht : s.tasks s.cur = some t) (hk : t.pgdir = 0)
    (hv : v < 0x100000) : runs (Refused [.getAPage, .pageTableAdd]) (getAPage .kernel v)
      (fun r s' => r = some v ∧ Sound L s' ∧ NewPages L s s' v 1) s := by
  have hpg : ¬ (t.pgdir ≠ 0 ∧ PoolFlags.kernel = .user) := fun hc => hc.1 hk
  unfold getAPage reservePage
  rw [runs_bind, runs_bind_ok (runningThread_run rfl ht), if_neg hpg]
  have hbit : bitIdx v kHeapStart < 0x3FF00 → v = kHeapStart + bitIdx v kHeapStart := bitIdx_kernel hv
  generalize bitIdx v kHeapStart = i at *
  refine runs_guard_bind (fun _ => .inr ⟨_, by simp, rfl⟩) fun _ => ?_
  refine runs_guard_bind (fun _ => .inr ⟨_, by simp, rfl⟩) fun _ => ?_
  rw [runs_read_bind]
  refine runs_guard_bind (fun _ => .inl (.inr rfl)) fun hi => ?_
  have hvi := hbit (by have := h.room; omega)
  clear hbit
  rw [runs_change]
  have hheap : kHeapStart ≤ v := by omega
  have hf₁ : Frames L quits { s with kernelVaddr := s.kernelVaddr.set i true } := h.frames.of_eq rfl rfl rfl
  have hr₁ : Rest s { s with kernelVaddr := s.kernelVaddr.set i true } :=
    ⟨⟨rfl, rfl, rfl, rfl⟩, rfl, rfl, rfl, rfl, rfl⟩
  refine runs_seq (runs_mono (palloc_spec hf₁) (fun _ => .inl) fun _ _ hq => hq) ?_
  rintro _ _ ⟨f, rfl, hf, hbit, hcell, rfl⟩
  have hpool := Vm.holds_pooled hf
  have hun : ∀ r, refs L s r ≠ some f := hf₁.unused (fun _ => le_refl 0) hpool hbit
  generalize hs₂ : ({ s with kernelVaddr := s.kernelVaddr.set i true } : Vm).claim f = s₂
  have hsame : Vm.SameRest { s with kernelVaddr := s.kernelVaddr.set i true } s₂ := hs₂ ▸ Vm.SameRest.claim _ f
  have hpl : Vm.SamePools { s with kernelVaddr := s.kernelVaddr.set i true } s₂ := hs₂ ▸ Vm.SamePools.claim _ f
  have hent : entries L s₂ = entries L s := entries_congr hsame.phys hsame.kernelPte
  have hf₂ : Frames L (owing quits f 1) s₂ := by
    unfold Frames
    rw [hent, ← hs₂]
    exact hf₁.claim hpool hbit hcell
  simp only
  cases hold : entries L s (.kernel v) with
  | some w =>
    have hw := (entries_kernel.1 hold).1
    rw [runs_bind]
    unfold runs
    rw [pageTableAdd_present (pde_kernel (heap_kernel hheap))
      (by rw [pte_kernel (heap_kernel hheap), hsame.kernelPte]; exact hw)]
    exact .inr ⟨_, by simp, rfl⟩
  | none =>
    have hno : entries L s₂ (.kernel v) = none := by rw [hent, hold]
    rw [runs_bind_ok (pageTableAdd_kernel hheap hno pgRw), runs_pure]
    have hf₃ := hf₂.mapKernel hheap hno (by rwa [hpl.holds])
      (fun r hr => hun r (by unfold refs at hr ⊢; rwa [hent] at hr))
    rw [owing_owing, show (1 : Int) + -1 = 0 from rfl, owing_zero] at hf₃
    have hset := entries_setPte_kernel (L := L) (s := s₂) (w := f * 4096 + pgRw) (heap_kernel hheap)
    rw [entry_of_present (present_pgRw f), hent] at hset
    have hpte := setPte_kernel (s := s₂) (w := f * 4096 + pgRw) (heap_kernel hheap)
    have hnew : NewPages L s (s₂.setPte v (f * 4096 + pgRw)) v 1 := by
      refine ⟨fun k hk' => ?_, fun k hk' => ⟨f, ?_, hf, hun⟩, fun r hr => ?_, ?_⟩
      · rw [show k = 0 by omega]
        exact hold
      · rw [show k = 0 by omega, Nat.add_zero, hset, update_self]
      · have hr0 : r ≠ .kernel v := hr 0 (by omega)
        rw [hset, update_of_ne hr0]
      · rw [hpte]
        exact hr₁.trans ((Rest.of hsame hpl).trans ⟨⟨rfl, rfl, rfl, rfl⟩, rfl, rfl, rfl, rfl, rfl⟩)
    have hkv : (s₂.setPte v (f * 4096 + pgRw)).kernelVaddr = setRange s.kernelVaddr true i 1 := by
      rw [hpte]
      exact hsame.kernelVaddr
    have hph : (s₂.setPte v (f * 4096 + pgRw)).phys = s.phys := by
      rw [hpte]
      exact hsame.phys
    have hkb := bits_newPages h.kernelBits hvi hnew hkv fun u hu => by
      rw [hpte]
      simp only [update_of_ne (show u ≠ v by omega), hsame.kernelPte]
    have he := hnew.effect h (fun g _ _ => by rw [hph]) (by rw [hkv, setRange_size])
    exact ⟨rfl, h.carry he hf₃ hkb (hnew.cow h.cow) fun _ _ hA => hA.elim, hnew⟩

end

end Enix.Memory
