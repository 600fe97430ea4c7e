import Enix.Memory.Budget
import Enix.Memory.PageCalls

/-!
# Write-protection faults (`do_wp_page`)

`Sound.doWpPage`: the page of the running process may be stored to afterwards,
no other reference to its frame is left, and what it holds is what it held.
The frame stays when it is counted once; otherwise the page moves to a frame of
the kernel's pool, by way of a buffer. With a budget `B` there is memory enough.
-/
set_option autoImplicit false

namespace Enix.Memory
open Enix.Core Enix.Kernel Function

/-- Page `v` of process `p`, on frame `f`, may be stored to. -/
structure Unshared (L : Spaces) (s s' : Vm) (p v f : Nat) : Prop extends Effect L s s' (· = p) where
  moved : ∃ g, entries L s' (.pte p v) = some (g * 4096 + pgRw) ∧ s'.phys g = s.phys f ∧
    (g = f ∨ s.Holds .kernel g)
  other : ∀ u, u ≠ v → entries L s' (.pte p u) = entries L s (.pte p u)
  kernel : ∀ u g, refs L s (.kernel u) = some g → refs L s' (.kernel u) = some g
  phys : ∀ g r, refs L s r = some g → Plain L s g → s'.phys g = s.phys g

section
variable {L : Spaces} {due : Nat → Int} {s s₁ s' : Vm} {e : Ref → Option Nat} {t : TaskStruct} {r : Ref}
  {f g p q v w n k buf fb : Nat}

theorem memCell_run (h : Books L due s e) (hf : s.Pooled f) (hpos : 0 < s.mem f) :
    memCell f s = .ok (s.mem f, s) := by
  unfold memCell
  rw [bind_ok (guard_run ⟨(h.range hf).1, h.cell f hf hpos⟩ _ s)]
  rfl

theorem copyPage_run {dst src : Nat} (hs : s.walk src = some g) (hd : s.walk dst = some f) :
    copyPage dst src s = .ok ((), s.setPhys f (s.phys g)) := by
  unfold copyPage
  rw [bind_ok (read_run _ s), hs, get_some, bind_ok (pure_run g s), bind_ok (read_run _ s), hd, get_some,
    bind_ok (pure_run f s), change_run]

/-- The pages that processes own are mapped. -/
theorem Sound.part_heap (h : Sound L s) {a : Part} (hp : s.part p a = some v) (hv : kHeapStart ≤ v) :
    ∃ f, refs L s (.kernel v) = some f := by
  by_cases hm : p = mainThread ∧ a = .pcb
  · obtain ⟨rfl, rfl⟩ := hm
    unfold Vm.part at hp
    cases ht : s.tasks mainThread with
    | none => rw [ht] at hp; cases hp
    | some t =>
      rw [ht] at hp
      cases hp
      exact absurd hv (by decide)
  · exact (h.part_ref hp hm).2

/-- The frame of one page changes, or only its flags. -/
theorem SetPage.effect (hset : SetPage L s s' p v (some w)) (h : Sound L s) : Effect L s s' (· = p) where
  rest := hset.rest
  room := by rw [hset.kernelVaddr]
  base := by rw [hset.kernelPte]
  part q a u f hp hf := by
    unfold refs refsOf at hf ⊢
    rwa [hset.entries, update_of_ne (by simp)]
  btmp q k u f _ hp hf := hset.phys f (h.map_plain hp hf)
  page q u hq := by
    rw [hset.entries, update_of_ne fun he => hq (by injection he)]

theorem Sound.user_setPage (h : Sound L s) (ht : s.tasks p = some t) (hl : t.live = true) {w₀ : Nat}
    (hw₀ : entries L s (.pte p v) = some w₀) (he : entries L s' = update (entries L s) (.pte p v) (some w))
    (hph : ∀ k u f, s.part p (.map k) = some u → refs L s (.kernel u) = some f → s'.phys f = s.phys f) :
    UserSpace L s' p t.userprogVaddr := by
  have hu := h.user p t ht hl
  refine hu.congr (fun k f hk hf => ?_) fun u => ?_
  · have hp := part_map ht hl (hu.pages_lt hk)
    refine ⟨?_, hph k _ f hp hf, fun q hq => ?_⟩
    · unfold refs refsOf at hf ⊢
      rwa [he, update_of_ne (by simp)]
    · obtain ⟨-, hc⟩ := h.part_frame hp hf hq
      cases hc
  · rw [he]
    by_cases hu : u = v
    · subst hu
      rw [update_self, hw₀]
      simp
    · rw [update_of_ne (by simpa using hu)]

/-- A frame that is counted once belongs to its page alone. -/
theorem Sound.alone (h : Sound L s) (hr : refs L s (.pte p v) = some f) (hm : s.mem f = 1)
    (hr' : refs L s r = some f) : r = .pte p v := by
  have hb := h.frames.bal f (h.frames.ok.home _ _ hr)
  have hq : (quits f : Int) = 0 := rfl
  exact eq_of_refCount_one (by unfold refs; omega) hr' hr

/-- The page keeps its frame. -/
theorem Sound.reuse (h : Sound L s) (ht : s.tasks s.cur = some t) (hl : t.live = true)
    (hr : refs L s (.pte s.cur v) = some f) (hm : s.mem f = 1) :
    Sound L (s.setPte v (f * 4096 + pgRw)) ∧ Unshared L s (s.setPte v (f * 4096 + pgRw)) s.cur v f := by
  have hL := h.inUse t ht hl
  have hv := page_lt hL hr
  obtain ⟨w₀, hw₀, hw₀f⟩ := refs_eq_some.1 hr
  obtain ⟨hf, hset⟩ := h.frames.reflag hL hv hr (.inl rfl)
  have he := hset.effect h
  have hrefs : refs L (s.setPte v (f * 4096 + pgRw)) = refs L s := by
    unfold refs
    rw [hset.entries, refsOf_update, Option.map_some, frame_pgRw, ← hr]
    exact update_eq_self ..
  have hcow : Cow L (s.setPte v (f * 4096 + pgRw)) := by
    intro q u w hw hwr r hr'
    rw [hrefs] at hr'
    rw [hset.entries] at hw
    by_cases hqu : Ref.pte q u = .pte s.cur v
    · rw [hqu, update_self] at hw
      cases hw
      rw [frame_pgRw] at hr'
      rw [hqu]
      exact h.alone hr hm hr'
    · rw [update_of_ne hqu] at hw
      exact h.cow q u w hw hwr r hr'
  have hk : KernelBits (s.setPte v (f * 4096 + pgRw)) :=
    ⟨by rw [hset.kernelPte, hset.kernelVaddr]; exact h.kernelBits.set,
      by rw [hset.kernelPte, hset.kernelVaddr]; exact h.kernelBits.mapped⟩
  have hpl := h.frames.plain_page hr
  refine ⟨h.carry he hf hk hcow fun q t' hq ht' _ => ?_, he, ⟨f, by rw [hset.entries, update_self],
    hset.phys f hpl, .inl rfl⟩, fun u hu => ?_, fun u g hg => by rw [hrefs]; exact hg, fun g r _ hg => hset.phys g hg⟩
  · subst hq
    rw [ht] at ht'
    cases ht'
    exact h.user_setPage ht hl hw₀ hset.entries fun k u f hp hf => hset.phys f (h.map_plain hp hf)
  · rw [hset.entries, update_of_ne (by simpa using hu)]

/-- A frame that is not counted once has another reference. -/
theorem Sound.notAlone (h : Sound L s) (hr : refs L s (.pte p v) = some f) (hm : s.mem f ≠ 1) :
    ∃ r, r ≠ .pte p v ∧ refs L s r = some f := by
  by_contra hno
  have hb := h.frames.bal f (h.frames.ok.home _ _ hr)
  have hone := refCount_eq_one hr fun r hr' => by
    by_contra hne
    exact hno ⟨r, hne, hr'⟩
  have hq : (quits f : Int) = 0 := rfl
  unfold refs at hone
  omega

/-- The page moves to a new frame; `buf` is the page of the buffer, on `fb`. -/
theorem Sound.move {B : Prop} {E : Stop → Prop} {P : Unit → Vm → Prop} {m : M Unit} (h : Sound L s)
    (ht : s.tasks s.cur = some t) (hl : t.live = true) (hr : refs L s (.pte s.cur v) = some f)
    (hm : s.mem f ≠ 1) (hbuf : kHeapStart ≤ buf) (hfb : refs L s (.kernel buf) = some fb)
    (hown : ∀ p a, s.part p a ≠ some buf) (hB : B → Has s.tasks 1 0 0 0 s) (hE : ∀ x, OutOfMemory x ∧ ¬ B → E x)
    (hP : ∀ s', Sound L s' → (∃ g, s.Holds .kernel g ∧ s'.phys g = s.phys f ∧
        entries L s' = update (entries L s) (.pte s.cur v) (some (g * 4096 + pgRw))) →
      s'.kernelPte = s.kernelPte → Effect L s s' (· = s.cur) →
      (∀ g r, refs L s r = some g → Plain L s g → g ≠ fb → s'.phys g = s.phys g) → runs E m P s') :
    runs E (do
      let new := (← palloc .kernel).getD 0
      copyPage buf v
      modifyPte v new pgRw
      copyPage v buf
      let c ← memCell f
      Cmd.change (·.setMem f ((c + 255) % 256))
      m) P s := by
  have hL := h.inUse t ht hl
  have hv := page_lt hL hr
  have hk := heap_kernel hbuf
  have hpool : s.Pooled f := h.frames.ok.home _ _ hr
  refine runs_seq (runs_mono (runs_within (palloc_spec h.frames) fun hb => palloc_kernel_costs 0 0 0 0 s (hB hb))
    (fun x hx => hE x ⟨hx.1, fun hb => hx.2 hb hx.1⟩) fun _ _ hq => hq.1) ?_
  rintro _ _ ⟨g, rfl, hg, hbit, hcell, rfl⟩
  have hgp := Vm.holds_pooled hg
  have hun : ∀ r, refs L s r ≠ some g := h.frames.unused (fun _ => le_refl 0) hgp hbit
  have hfg : f ≠ g := fun he => hun _ (he ▸ hr)
  have hbg : fb ≠ g := fun he => hun _ (he ▸ hfb)
  have hfpl := h.frames.plain_page hr
  have hbpl : Plain L s fb := h.frames.plain_kernel hfb fun q hq => by
    obtain ⟨t', ht', hl', hvd, hd⟩ := h.dir_ref hq
    have hf := h.frames.ok.kernel_only h.frames.kernel_base hvd hd hfb
    injection hf with hf
    exact hown q .dir (by rw [hf]; exact part_dir ht' (TaskStruct.live_pgdir hl'))
  have hgpl := h.frames.plain_fresh hun
  have hfb' : f ≠ fb := fun he => by
    cases h.frames.ok.kernel_only h.frames.kernel_base hbuf hfb (he ▸ hr)
  -- the new frame is claimed
  have hsame := Vm.SameRest.claim s g
  have hsp := Vm.SamePools.claim s g
  have hent₂ : entries L (s.claim g) = entries L s := entries_claim
  have hrefs₂ : refs L (s.claim g) = refs L s := by unfold refs; rw [hent₂]
  have hf₂ : Frames L (owing quits g 1) (s.claim g) := by
    unfold Frames
    rw [hent₂]
    exact h.frames.claim hgp hbit hcell
  have hL₂ : L s.cur = some (s.claim g).cr3 := by rw [hsame.cr3]; exact hL
  have hwv₂ : (s.claim g).walk v = some f := by rw [walk_user hL₂ hv, hrefs₂, hr]
  have hwb₂ : (s.claim g).walk buf = some fb := by rw [walk_kernel (L := L) hk, hrefs₂, hfb]
  simp only [Option.getD_some]
  rw [runs_bind_ok (copyPage_run hwv₂ hwb₂)]
  -- the buffer holds the page
  have hpl₂ : ∀ {d}, Plain L s d → Plain L (s.claim g) d := fun hd => ⟨hd.1, by rw [hrefs₂]; exact hd.2⟩
  have hst : Stored L (s.claim g) ((s.claim g).setPhys fb ((s.claim g).phys f)) := Stored.setPhys (hpl₂ hbpl) _
  have hph₃ : ∀ d, d ≠ fb → ((s.claim g).setPhys fb ((s.claim g).phys f)).phys d = s.phys d := fun d hd => by
    rw [phys_setPhys_ne hd, hsame.phys]
  have hph₃' : ((s.claim g).setPhys fb ((s.claim g).phys f)).phys fb = s.phys f := by
    rw [phys_setPhys_self, hsame.phys]
  generalize hs₃ : (s.claim g).setPhys fb ((s.claim g).phys f) = s₃ at *
  have hf₃ := hst.frames hf₂
  have hrefs₃ : refs L s₃ = refs L s := hst.refs.trans hrefs₂
  have hL₃ : L s.cur = some s₃.cr3 := by rw [hst.rest.cr3]; exact hL₂
  obtain ⟨w₀, hw₀, hw₀f⟩ := refs_eq_some.1 hr
  have hw₃ : entries L s₃ (.pte s.cur v) = some w₀ := by rw [hst.entries, hent₂, hw₀]
  rw [runs_bind_ok (modifyPte_run hL₃ hv hw₃ g pgRw)]
  -- the entry is that of the new frame
  have hpl₃ : ∀ {d}, Plain L s d → Plain L s₃ d := fun hd => hst.plain (hpl₂ hd)
  obtain ⟨hf₄, hset⟩ := hf₃.replace hL₃ hv (hrefs₃ ▸ hr) (by rw [hst.rest.pooled, hsp.pooled]; exact hgp)
    (by rw [hrefs₃]; exact hun)
  generalize s₃.setPte v (g * 4096 + pgRw) = s₄ at *
  have hL₄ : L s.cur = some s₄.cr3 := by rw [hset.rest.cr3]; exact hL₃
  have hent₄ : entries L s₄ = update (entries L s) (.pte s.cur v) (some (g * 4096 + pgRw)) := by
    rw [hset.entries, hst.entries, hent₂]
  have hwv₄ : s₄.walk v = some g := by
    rw [walk_user hL₄ hv]
    exact refs_eq_some.2 ⟨_, by rw [hent₄, update_self], frame_pgRw g⟩
  have hwb₄ : s₄.walk buf = some fb := by
    rw [walk_kernel (L := L) hk]
    unfold refs refsOf
    rw [hent₄, update_of_ne (by simp)]
    exact hfb
  rw [runs_bind_ok (copyPage_run hwb₄ hwv₄)]
  -- the page holds what the buffer holds
  have hold : ∀ {r d}, refs L s₄ r = some d → r ≠ .pte s.cur v → refs L s r = some d := by
    intro r d hrd hne
    unfold refs refsOf at hrd ⊢
    rwa [hent₄, update_of_ne hne] at hrd
  have hgpl₄ : Plain L s₄ g := ⟨hgpl.1, fun q i hi => hun _ (hold hi (by simp))⟩
  have hst₅ : Stored L s₄ (s₄.setPhys g (s₄.phys fb)) := Stored.setPhys hgpl₄ _
  have hph₅ : (s₄.setPhys g (s₄.phys fb)).phys g = s.phys f := by
    rw [phys_setPhys_self, hset.phys fb (hpl₃ hbpl), hph₃']
  have hph₅' : ∀ d, Plain L s d → d ≠ g → d ≠ fb → (s₄.setPhys g (s₄.phys fb)).phys d = s.phys d := by
    intro d hd hdg hdb
    rw [phys_setPhys_ne hdg, hset.phys d (hpl₃ hd), hph₃ d hdb]
  generalize hs₅ : s₄.setPhys g (s₄.phys fb) = s₅ at *
  have hf₅ := hst₅.frames hf₄
  have hent₅ : entries L s₅ = update (entries L s) (.pte s.cur v) (some (g * 4096 + pgRw)) :=
    hst₅.entries.trans hent₄
  have hrefs₅ : refs L s₅ = refs L s₄ := hst₅.refs
  have hrest₅ : Rest s s₅ := (Rest.of hsame hsp).trans (hst.rest.trans (hset.rest.trans hst₅.rest))
  -- the old frame has a reference left
  obtain ⟨r', hr'ne, hr'⟩ := h.notAlone hr hm
  have hr'₅ : refs L s₅ r' = some f := by
    unfold refs refsOf
    rw [hent₅, update_of_ne hr'ne]
    exact hr'
  have hp₅ : s₅.Pooled f := by rw [hrest₅.pooled]; exact hpool
  have hbal := hf₅.bal f hp₅
  have hdue : owing (owing (owing quits g 1) f 1) g (-1) f = 1 := by
    rw [owing_ne _ hfg, owing_self, owing_ne _ hfg]
    rfl
  rw [hdue] at hbal
  have hposr : 0 < refCount (refs L s₅) f := (refCount_pos hf₅.ok.fin).2 ⟨r', hr'₅⟩
  obtain ⟨q, rfl⟩ := h.frames.ok.page_only h.frames.pooled_base hr hr'
  have hfew := hf₅.sharers hr'₅
  have hlt := h.few
  unfold refs at hposr hfew
  rw [runs_bind_ok (memCell_run hf₅ hp₅ (by omega)), runs_change_bind,
    show (s₅.mem f + 255) % 256 = s₅.mem f - 1 by omega]
  have hf₆ := Books.recount hf₅ hp₅ (by omega) (c := s₅.mem f - 1) (by omega)
  rw [show ((s₅.mem f - 1 : Nat) : Int) - s₅.mem f = -1 by omega] at hf₆
  have hdue₆ : owing (owing (owing (owing quits g 1) f 1) g (-1)) f (-1) = quits := by
    rw [owing_comm, owing_owing, owing_comm, owing_owing]
    simp [owing_zero]
  rw [hdue₆] at hf₆
  have hent₆ : entries L (s₅.setMem f (s₅.mem f - 1)) = entries L s₅ := rfl
  have hrest₆ : Rest s (s₅.setMem f (s₅.mem f - 1)) :=
    hrest₅.trans (Rest.of (Vm.SameRest.setMem s₅ f _) (Vm.SamePools.setMem s₅ f _))
  have hkp₆ : (s₅.setMem f (s₅.mem f - 1)).kernelPte = s.kernelPte := by
    rw [show (s₅.setMem f (s₅.mem f - 1)).kernelPte = s₅.kernelPte from rfl, hst₅.kernelPte, hset.kernelPte,
      hst.kernelPte, hsame.kernelPte]
  have hkv₆ : (s₅.setMem f (s₅.mem f - 1)).kernelVaddr = s.kernelVaddr := by
    rw [show (s₅.setMem f (s₅.mem f - 1)).kernelVaddr = s₅.kernelVaddr from rfl, hst₅.kernelVaddr,
      hset.kernelVaddr, hst.kernelVaddr, hsame.kernelVaddr]
  have hph₆ : (s₅.setMem f (s₅.mem f - 1)).phys = s₅.phys := rfl
  generalize s₅.setMem f (s₅.mem f - 1) = s₆ at *
  have hf₆' : Frames L quits s₆ := by
    unfold Frames
    rw [hent₆]
    exact hf₆
  have hent : entries L s₆ = update (entries L s) (.pte s.cur v) (some (g * 4096 + pgRw)) :=
    hent₆.trans hent₅
  have hphys : ∀ d r, refs L s r = some d → Plain L s d → d ≠ fb → s₆.phys d = s.phys d := by
    intro d r hd hpl hdb
    rw [hph₆]
    exact hph₅' d hpl (fun he => hun r (he ▸ hd)) hdb
  have hmap : ∀ q k u d, s.part q (.map k) = some u → refs L s (.kernel u) = some d → s₆.phys d = s.phys d := by
    intro q k u d hp hd
    refine hphys d _ hd (h.map_plain hp hd) fun he => ?_
    have hkk := h.frames.ok.kernel_only h.frames.kernel_base hbuf hfb (he ▸ hd)
    injection hkk with hkk
    exact hown q _ (hkk ▸ hp)
  have heff : Effect L s s₆ (· = s.cur) := by
    refine ⟨hrest₆, by rw [hkv₆], by rw [hkp₆], fun q a u d hp hd => ?_, fun q k u d _ hp hd => hmap q k u d hp hd,
      fun q u hq => ?_⟩
    · unfold refs refsOf at hd ⊢
      rwa [hent, update_of_ne (by simp)]
    · rw [hent, update_of_ne fun he => hq (by injection he)]
  have hcow : Cow L s₆ := by
    intro q u w hw hwr r hrw
    rw [hent] at hw
    unfold refs refsOf at hrw
    rw [hent] at hrw
    by_cases hqu : Ref.pte q u = .pte s.cur v
    · rw [hqu, update_self] at hw
      cases hw
      rw [frame_pgRw] at hrw
      by_cases hrr : r = .pte s.cur v
      · rw [hrr, hqu]
      · rw [update_of_ne hrr] at hrw
        exact absurd hrw (hun r)
    · rw [update_of_ne hqu] at hw
      by_cases hrr : r = .pte s.cur v
      · rw [hrr, update_self, Option.map_some, frame_pgRw] at hrw
        exact absurd (refs_eq_some.2 ⟨w, hw, (Option.some.inj hrw).symm⟩) (hun _)
      · rw [update_of_ne hrr] at hrw
        exact h.cow q u w hw hwr r hrw
  have hkb : KernelBits s₆ := ⟨by rw [hkp₆, hkv₆]; exact h.kernelBits.set,
    by rw [hkp₆, hkv₆]; exact h.kernelBits.mapped⟩
  refine hP s₆ (h.carry heff hf₆' hkb hcow fun q t' hq ht' _ => ?_) ⟨g, hg, by rw [hph₆, hph₅], hent⟩ hkp₆ heff hphys
  subst hq
  rw [ht] at ht'
  cases ht'
  exact h.user_setPage ht hl hw₀ hent fun k u d hp hd => hmap _ k u d hp hd

/-- One page of the kernel is always found, if any bit is clear. -/
theorem Sound.getKernelPage {B : Prop} {T : Nat → Option TaskStruct} {a x e l : Nat} (h : Sound L s)
    (hB : B → Has T (1 + a) x (1 + e) l s) : runs (fun y => OutOfMemory y ∧ ¬ B) (Memory.getKernelPages 1)
      (fun r s' => ∃ v, r = some v ∧ Sound L s' ∧ GotPages L quits s s' v 1 ∧ (B → Has T a x e l s')) s := by
  refine runs_mono (runs_within (h.getKernelPages (by decide) (by decide)) fun hb => getKernelPages_run (hB hb))
    (fun y hy => ⟨hy.1, fun hb => hy.2 hb hy.1⟩) ?_
  rintro r s' ⟨⟨-, -, hscan⟩ | ⟨v, rfl, hs', hg⟩, hb⟩
  · obtain ⟨n, hn, -⟩ := Bitmap.scan_one_lt hscan
    omega
  · exact ⟨v, rfl, hs', hg, fun b => (hb b).2⟩

/-- A new page is nobody's. -/
theorem GotPages.unowned (hg : GotPages L due s s' v n) (h : Sound L s) (hk : k < n) (p : Nat) (a : Part) :
    s'.part p a ≠ some (v + k) := by
  intro hp
  rw [part_congr hg.rest.tasks] at hp
  obtain ⟨f, hf⟩ := h.part_heap hp (by have := hg.heap; omega)
  obtain ⟨w, hw, -⟩ := refs_eq_some.1 hf
  rw [hg.old k hk] at hw
  cases hw

/-- `do_wp_page` on a page of the running process. -/
theorem Sound.doWpPage {B : Prop} (h : Sound L s) (ht : s.tasks s.cur = some t) (hl : t.live = true)
    (hr : refs L s (.pte s.cur v) = some f) (hB : B → Has s.tasks 2 0 1 0 s) :
    runs (fun x => OutOfMemory x ∧ ¬ B) (Memory.doWpPage v)
      (fun _ s' => Sound L s' ∧ Unshared L s s' s.cur v f) s := by
  have hL := h.inUse t ht hl
  have hv := page_lt hL hr
  have hpool : s.Pooled f := h.frames.ok.home _ _ hr
  have hpos := h.frames.bal.counted h.frames.ok.fin hpool hr (le_refl 0)
  unfold Memory.doWpPage
  rw [runs_bind_ok (addrV2p_user hL hv hr), runs_bind_ok (memCell_run h.frames hpool hpos)]
  by_cases hm : s.mem f = 1
  · obtain ⟨w, hw, -⟩ := refs_eq_some.1 hr
    rw [if_pos hm, runs_ok (modifyPte_run hL hv hw f pgRw)]
    exact h.reuse ht hl hr hm
  · rw [if_neg hm]
    refine runs_seq (h.getKernelPage (a := 1) (x := 0) (e := 0) (l := 0) hB) ?_
    rintro _ s₁ ⟨buf, rfl, h₁, hg, hb₁⟩
    have ht₁ : s₁.tasks s₁.cur = some t := by rw [hg.rest.tasks, hg.rest.cur]; exact ht
    have hr₁ : refs L s₁ (.pte s₁.cur v) = some f := by rw [hg.rest.cur]; exact hg.keeps_ref hr
    obtain ⟨fb, hfb, hfbp, hfbun⟩ := hg.fresh 0 (by decide)
    have hfbr : refs L s₁ (.kernel buf) = some fb := refs_eq_some.2 ⟨_, hfb, frame_pgRw fb⟩
    have hun : ∀ p a, s₁.part p a ≠ some buf := fun p a => hg.unowned h (k := 0) (by decide) p a
    have hm₁ : s₁.mem f ≠ 1 := by
      obtain ⟨r, hne, hr'⟩ := h.notAlone hr hm
      intro hc
      exact hne (by rw [← hg.rest.cur]; exact h₁.alone hr₁ hc (hg.keeps_ref hr'))
    have he₁ : Effect L s s₁ (· = s.cur) := by
      obtain ⟨i, -, -, hkv⟩ := hg.run
      exact (hg.toNewPages.effect h (fun g r hr => hg.phys_used hr) (by rw [hkv, setRange_size])).mono
        fun _ hf => hf.elim
    simp only [Option.getD_some]
    refine h₁.move ht₁ hl hr₁ hm₁ hg.heap hfbr hun (fun hb => (hb₁ hb).self) (fun _ hx => hx) ?_
    intro s₂ h₂ ⟨g, hgk, hgph, hent⟩ hkp he hph
    rw [hg.rest.cur] at hent he
    have hbuf : refs L s₂ (.kernel buf) = some fb := by
      unfold refs refsOf
      rw [hent, update_of_ne (by simp)]
      exact hfbr
    refine runs_mono (h₂.mfreeKernel hg.heap (le_refl 1) (fun k hk => ?_) fun p a k hk => ?_)
      (fun _ hE => hE.elim) ?_
    · rw [show k = 0 by omega, Nat.add_zero]
      exact (refs_kernel.1 hbuf).1
    · rw [part_congr he.rest.tasks, show k = 0 by omega, Nat.add_zero]
      exact hun p a
    · rintro - s' ⟨h', hlost, hkv⟩
      have he₃ : Effect L s₂ s' (· = s.cur) := (hlost.effect hg.heap (fun p a k hk => by
        rw [part_congr he.rest.tasks, show k = 0 by omega, Nat.add_zero]
        exact hun p a) (by rw [hkv, setRange_size])).mono fun _ hf => hf.elim
      have hpage : ∀ p u, entries L s' (.pte p u) = entries L s₂ (.pte p u) := fun p u =>
        hlost.other _ fun k _ he => by cases he
      refine ⟨h', he₁.trans (he.trans he₃), ⟨g, ?_, ?_, ?_⟩, fun u hu => ?_, fun u d hd => ?_, fun d r hd hpl => ?_⟩
      · rw [hpage, hent, update_self]
      · rw [hlost.phys, hgph, hg.phys_used hr]
      · rw [hg.rest.holds] at hgk
        exact .inr hgk
      · rw [hpage, hent, update_of_ne (by simpa using hu)]
        exact hg.other _ fun k _ he => by cases he
      · have hne : u ≠ buf := by
          rintro rfl
          obtain ⟨w, hw, -⟩ := refs_eq_some.1 hd
          have := hg.old 0 (by decide)
          rw [Nat.add_zero, hw] at this
          cases this
        refine hlost.keeps ?_ fun k hk hek => ?_
        · have hd₁ := hg.keeps_ref hd
          unfold refs refsOf at hd₁ ⊢
          rwa [hent, update_of_ne (by simp)]
        · injection hek
          omega
      · have hpl₁ : Plain L s₁ d := ⟨hpl.1, fun q i hi => hpl.2 q i (by
          unfold refs refsOf at hi ⊢
          rwa [hg.other _ fun k _ he => by cases he] at hi)⟩
        have hdb : d ≠ fb := fun he => hfbun _ (he ▸ hd)
        rw [hlost.phys, hph d r (hg.keeps_ref hd) hpl₁ hdb, hg.phys_used hd]

end

end Enix.Memory
