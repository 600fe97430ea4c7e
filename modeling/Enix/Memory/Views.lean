import Enix.Memory.Calls
import Enix.Memory.Free

/-!
# Processes that do not run

`s.onCpu L p` is the machine as process `p` would have it: a heap is in the pages of
a process, whoever runs. `view L s p v` is what the process has in a page.

* `HeapOk.elsewhere`: a heap depends on what the process has in its pages.
* `heap_empty`: the heap of a new process.
* `Carries`: what a call does to the pages of the processes that live before it and
  after it; `Within.carries` and `Sound.call_carries`.
-/
set_option autoImplicit false

namespace Enix.Memory
open Enix.Core Enix.Kernel Function

/-- Process `p` on the processor. -/
def Vm.onCpu (L : Spaces) (s : Vm) (p : Nat) : Vm := { s with cr3 := (L p).getD s.cr3, cur := p }

/-- What process `p` has in page `v`. -/
def view (L : Spaces) (s : Vm) (p v : Nat) : Option Bytes :=
  (refs L s (if v < kernelBase then .pte p v else .kernel v)).map s.phys

/-- What a call does to the pages of the processes in `P`: they have what they had. It
may have stored to pages in `U` of the running process, and to those of others on the
same frames. No two processes share more than before, and a new one has no heap. -/
structure Carries (L L' : Spaces) (s s' : Vm) (P U : Nat → Prop) : Prop where
  view : ∀ p v b, P p → L p ≠ none → L' p ≠ none → v = p ∨ v < kernelBase →
    (∀ f, U v → refs L s (.pte s.cur v) = some f → refs L s (.pte p v) ≠ some f) →
    Memory.view L s p v = some b → Memory.view L' s' p v = some b
  shared : ∀ p q v f, p ≠ q → L p ≠ none → L q ≠ none → refs L' s' (.pte p v) = some f →
    refs L' s' (.pte q v) = some f → ∃ g, refs L s (.pte p v) = some g ∧ refs L s (.pte q v) = some g
  born : ∀ p, L' p ≠ none → L p = none → p < 0x100000 ∧ HeapOk (s'.onCpu L' p) Heap.none

section
variable {L L' : Spaces} {s s₁ s' : Vm} {t tc : TaskStruct} {H : Heap} {P U : Nat → Prop} {name : List UInt8}
  {a b c d f k n p q u v : Nat}

/-! ## On the processor -/

theorem onCpu_cur (h : L s.cur = some s.cr3) : s.onCpu L s.cur = s := by
  unfold Vm.onCpu
  rw [h]
  rfl

theorem onCpu_refs (L : Spaces) (s : Vm) (p : Nat) : refs L (s.onCpu L p) = refs L s := refs_congr rfl rfl

/-- A live process can be put on the processor. -/
theorem Sound.onCpu (h : Sound L s) (hp : L p ≠ none) (hlow : p < 0x100000) :
    ∃ t, s.tasks p = some t ∧ Running L (s.onCpu L p) t := by
  obtain ⟨d, hd⟩ := Option.ne_none_iff_exists'.1 hp
  obtain ⟨t, ht, hl, -⟩ := h.dir_ref hd
  have hs : Sound L (s.onCpu L p) := by
    unfold Vm.onCpu
    rw [hd]
    exact h.switch d p fun _ _ _ => hd
  exact ⟨t, ht, hs, ht, hl, hlow⟩

theorem onCpu_walk (h : Sound L s) (hp : L p ≠ none) (hlow : p < 0x100000) :
    (s.onCpu L p).walk v = refs L s (if v < kernelBase then .pte p v else .kernel v) := by
  obtain ⟨t, -, hr⟩ := h.onCpu hp hlow
  rw [hr.walk, onCpu_refs]
  rfl

theorem onCpu_own (h : Sound L s) (hp : L p ≠ none) (hlow : p < 0x100000) :
    (s.onCpu L p).own v ↔ (v < kernelBase ∨ v = p) ∧ view L s p v ≠ none := by
  unfold Vm.own view
  rw [onCpu_walk h hp hlow]
  simp only [ne_eq, Option.map_eq_none_iff]
  rfl

theorem onCpu_byteAt (h : Sound L s) (hp : L p ≠ none) (hlow : p < 0x100000) (a : Nat) :
    (s.onCpu L p).byteAt a = ((view L s p (a / 4096)).map (· (a % 4096))).getD 0 := by
  unfold Vm.byteAt view
  rw [onCpu_walk h hp hlow]
  cases refs L s (if a / 4096 < kernelBase then .pte p (a / 4096) else .kernel (a / 4096)) with
  | none => rfl
  | some f => rfl

theorem view_user (hv : v < kernelBase) : view L s p v = image L s p v := by
  unfold view image
  rw [if_pos hv]

theorem view_pcb (hv : kernelBase ≤ v) : view L s p v = (refs L s (.kernel v)).map s.phys := by
  unfold view
  rw [if_neg (Nat.not_lt.2 hv)]

/-- A heap is the same where its pages are, with the same books in them. -/
theorem HeapOk.elsewhere (hok : HeapOk (s.onCpu L p) H) (h' : Sound L' s') (hp' : L' p ≠ none) (hlow : p < 0x100000)
    (hstay : ∀ v, v = p ∨ H.used v → view L' s' p v ≠ none)
    (hbyte : ∀ a, H.books (s.onCpu L p) a → (s'.onCpu L' p).byteAt a = (s.onCpu L p).byteAt a) :
    HeapOk (s'.onCpu L' p) H := by
  refine hok.congr rfl (fun v hv => ?_) hbyte
  refine (onCpu_own h' hp' hlow).2 ⟨?_, hstay v hv⟩
  rcases hv with hv | hv
  · exact .inr hv
  · exact .inl (hok.user hv).1

/-- The pages of a heap are there, and that of the `task_struct`. -/
theorem HeapOk.view (hok : HeapOk (s.onCpu L p) H) (h : Sound L s) (hp : L p ≠ none) (hlow : p < 0x100000)
    (hv : v = p ∨ H.used v) : (v = p ∨ v < kernelBase) ∧ Memory.view L s p v ≠ none := by
  obtain ⟨t, -, hr⟩ := h.onCpu hp hlow
  have hown := (onCpu_own h hp hlow).1 (hok.own hr hv)
  exact ⟨hown.1.symm, hown.2⟩

/-! ## A new heap -/

theorem descBytes_low (base : Nat) : ∀ n (x : Bytes) (o bs i : Nat), i + 4 ≤ o → le32 (descBytes base x o bs n) i = le32 x i := by
  intro n
  induction n with
  | zero =>
    intro x o bs i _
    rfl
  | succ n ih =>
    intro x o bs i hi
    unfold descBytes descSize listBytes
    rw [ih _ _ _ _ (by omega), le32_putWord_ne (by omega), le32_putWord_ne (by omega), le32_putWord_ne (by omega),
      le32_putWord_ne (by omega), le32_putWord_ne (by omega), le32_putWord_ne (by omega)]

/-- The words of the descriptors that `block_desc_init` writes. -/
theorem descBytes_words {base : Nat} : ∀ n (x : Bytes) (o j k : Nat), base + o + 24 * n < 4294967296 →
    blockSize (j + n) < 4294967296 → k < n → let y := descBytes base x o (blockSize j) n
    le32 y (o + 24 * k) = blockSize (j + k) ∧ le32 y (o + 24 * k + 4) = blocksPerArena (j + k) ∧
    le32 y (o + 24 * k + 12) = base + (o + 24 * k + 16) ∧ le32 y (o + 24 * k + 16) = base + (o + 24 * k + 8) := by
  intro n
  induction n with
  | zero =>
    intro x o j k _ _ hk
    exact absurd hk (Nat.not_lt_zero k)
  | succ n ih =>
    intro x o j k hfit hbs hk
    have hdouble : blockSize j * 2 = blockSize (j + 1) := by
      unfold blockSize
      rw [Nat.pow_succ, Nat.mul_assoc]
    unfold descBytes
    rw [hdouble]
    cases k with
    | succ k =>
      have hw := ih (listBytes base (putWord (putWord x o (blockSize j)) (o + 4) ((4096 - arenaSize) / blockSize j)) (o + 8))
        (o + descSize) (j + 1) k (by unfold descSize; omega) (by rwa [Nat.add_assoc, Nat.add_comm 1 n]) (by omega)
      unfold descSize at hw ⊢
      rw [show o + 24 + 24 * k = o + 24 * (k + 1) by omega, show j + 1 + k = j + (k + 1) by omega] at hw
      exact hw
    | zero =>
      have hlt : blockSize j < 4294967296 := by
        refine lt_of_le_of_lt ?_ hbs
        unfold blockSize
        exact Nat.mul_le_mul_left 16 (Nat.pow_le_pow_right (by decide) (by omega))
      have hper : (4096 - arenaSize) / blockSize j < 4294967296 :=
        lt_of_le_of_lt (Nat.div_le_self _ _) (by decide)
      have hlow : ∀ i, i + 4 ≤ o + 24 → ∀ y bs, le32 (descBytes base y (o + descSize) bs n) i = le32 y i := fun i hi y bs =>
        descBytes_low base n y _ bs i (by unfold descSize; omega)
      unfold listBytes
      refine ⟨?_, ?_, ?_, ?_⟩
      · rw [hlow _ (by omega), le32_putWord_ne (by omega), le32_putWord_ne (by omega), le32_putWord_ne (by omega),
          le32_putWord_ne (by omega), le32_putWord_ne (by omega)]
        exact le32_putWord_self hlt
      · rw [hlow _ (by omega), le32_putWord_ne (by omega), le32_putWord_ne (by omega), le32_putWord_ne (by omega),
          le32_putWord_ne (by omega)]
        exact le32_putWord_self hper
      · rw [hlow _ (by omega), le32_putWord_ne (by omega), le32_putWord_ne (by omega)]
        exact (le32_putWord_self (by omega)).trans (by omega)
      · rw [hlow _ (by omega), le32_putWord_ne (by omega)]
        exact (le32_putWord_self (by omega)).trans (by omega)

/-- The heap of a new process is empty. -/
theorem heap_empty (hr : Running L s t) {f : Nat} {x : Bytes} (hf : s.walk s.cur = some f)
    (hb : s.phys f = descBytes (4096 * s.cur) x uBlockDesc 16 descCnt) : HeapOk s Heap.none := by
  have hpage := hr.page
  have hword : ∀ o, o % 4 = 0 → o + 4 ≤ 4096 → s.wordAt (4096 * s.cur + o) = le32 (s.phys f) o := fun o h4 ho => by
    have hdiv : (4096 * s.cur + o) / 4096 = s.cur := by omega
    rw [wordAt_eq (f := f) (by rw [hdiv]; exact hf) (by omega), show (4096 * s.cur + o) % 4096 = o by omega]
  have hdesc : ∀ k, k < descCnt → s.wordAt (s.desc k) = blockSize k ∧ s.wordAt (s.desc k + 4) = blocksPerArena k ∧
      s.wordAt (s.desc k + 12) = s.desc k + 16 ∧ s.wordAt (s.desc k + 16) = s.desc k + 8 := by
    intro k hk
    have hfit : 4096 * s.cur + uBlockDesc + 24 * descCnt < 4294967296 := by
      unfold uBlockDesc descCnt
      omega
    have hw := descBytes_words descCnt x uBlockDesc 0 k hfit (by decide) hk
    simp only [Nat.zero_add] at hw
    have h16 : blockSize 0 = 16 := by decide
    rw [h16, ← hb] at hw
    unfold descCnt at hk
    have hd : s.desc k = 4096 * s.cur + (uBlockDesc + 24 * k) := by
      unfold Vm.desc descSize
      omega
    unfold uBlockDesc at hd hw
    rw [hd]
    refine ⟨?_, ?_, ?_, ?_⟩
    · rw [hword _ (by omega) (by omega)]
      exact hw.1
    · rw [show 4096 * s.cur + (100 + 24 * k) + 4 = 4096 * s.cur + (100 + 24 * k + 4) by omega, hword _ (by omega) (by omega)]
      exact hw.2.1
    · rw [show 4096 * s.cur + (100 + 24 * k) + 12 = 4096 * s.cur + (100 + 24 * k + 12) by omega,
        hword _ (by omega) (by omega)]
      exact hw.2.2.1
    · rw [show 4096 * s.cur + (100 + 24 * k) + 16 = 4096 * s.cur + (100 + 24 * k + 16) by omega,
        hword _ (by omega) (by omega)]
      exact hw.2.2.2
  have hnode : ∀ k, k < descCnt → ∀ n, n = s.desc k + 8 ∨ n = s.desc k + 16 → Node s n := by
    intro k hk n hn
    have hd := desc_page (s := s) hk
    have hm := desc_mod s k
    refine ⟨hr.own_desc hk (by omega) (by omega), by omega, by omega⟩
  refine ⟨fun k hk => (hdesc k hk).1, fun k hk => (hdesc k hk).2.1, fun k hk => ⟨⟨?_, ?_⟩, fun n hn => ?_⟩,
    fun k _ b hb => absurd hb List.not_mem_nil, fun v k hv => ?_, fun v n hv => ?_, fun v k u n hv => ?_,
    fun v n u m hv => ?_⟩
  · exact List.isChain_cons_cons.2 ⟨⟨(hdesc k hk).2.2.1, (hdesc k hk).2.2.2⟩, List.isChain_singleton _⟩
  · refine List.nodup_cons.2 ⟨fun hc => ?_, List.nodup_singleton _⟩
    have he := List.mem_singleton.1 hc
    omega
  · rw [mem_listNodes] at hn
    refine hnode k hk n ?_
    rcases hn with hn | hn | hn
    · exact .inl hn
    · exact absurd hn List.not_mem_nil
    · exact .inr (by omega)
  · cases hv
  · cases hv
  · cases hv
  · cases hv

theorem Heap.none_busy : Heap.none.Busy := fun v k hv => by cases hv

/-! ## What calls carry over -/

theorem Carries.refl (L : Spaces) (s : Vm) (P U : Nat → Prop) : Carries L L s s P U :=
  ⟨fun _ _ _ _ _ _ _ _ hb => hb, fun _ _ _ f _ _ _ hp hq => ⟨f, hp, hq⟩, fun _ hp hn => absurd hn hp⟩

/-- The parts of a process are its own. -/
theorem Sound.pcb_only (h : Sound L s) (hp : L p ≠ none) {x : Part} (hq : s.part q x = some p) : q = p ∧ x = .pcb := by
  obtain ⟨d, hd⟩ := Option.ne_none_iff_exists'.1 hp
  obtain ⟨t, ht, -⟩ := h.dir_ref hd
  exact h.own q p x .pcb p hq (part_pcb ht)

/-- The page of a `task_struct`. -/
theorem Sound.pcb_ref (h : Sound L s) (hp : L p ≠ none) : kHeapStart ≤ p ∧ ∃ f, refs L s (.kernel p) = some f ∧
    Plain L s f ∧ ∀ q k u, s.part q (.map k) = some u → refs L s (.kernel u) ≠ some f := by
  obtain ⟨d, hd⟩ := Option.ne_none_iff_exists'.1 hp
  obtain ⟨t, ht, hl, -⟩ := h.dir_ref hd
  obtain ⟨hv, f, hf⟩ := h.live_ref ht hl (part_pcb ht)
  refine ⟨hv, f, hf, h.frames.plain_kernel hf fun q hq => ?_, fun q k u hu hfu => ?_⟩
  · obtain ⟨-, hc⟩ := h.part_frame (part_pcb ht) hf hq
    cases hc
  · have hk := h.frames.ok.kernel_only h.frames.kernel_base hv hf hfu
    cases hk
    obtain ⟨-, hc⟩ := h.own q p _ _ _ hu (part_pcb ht)
    cases hc

/-- Images and the pages of the `task_struct`s stay. -/
theorem Carries.of_images (h : Sound L s) (himage : ∀ p v, P p → L p ≠ none → L' p ≠ none → image L s p v ≠ none →
      image L' s' p v = image L s p v)
    (hpcb : ∀ p f, L p ≠ none → L' p ≠ none → refs L s (.kernel p) = some f → Plain L s f →
      (∀ q k u, s.part q (.map k) = some u → refs L s (.kernel u) ≠ some f) →
      refs L' s' (.kernel p) = some f ∧ s'.phys f = s.phys f)
    (hshared : ∀ p q v f, p ≠ q → L p ≠ none → L q ≠ none → refs L' s' (.pte p v) = some f →
      refs L' s' (.pte q v) = some f → ∃ g, refs L s (.pte p v) = some g ∧ refs L s (.pte q v) = some g)
    (hborn : ∀ p, L' p ≠ none → L p = none → p < 0x100000 ∧ HeapOk (s'.onCpu L' p) Heap.none) : Carries L L' s s' P U := by
  refine ⟨fun p v b hP hp hp' hv _ hb => ?_, hshared, hborn⟩
  by_cases hlt : v < kernelBase
  · rw [view_user hlt] at hb ⊢
    rw [himage p v hP hp hp' (by rw [hb]; simp), hb]
  · obtain rfl := hv.resolve_right hlt
    obtain ⟨-, f, hf, hpl, hm⟩ := h.pcb_ref hp
    obtain ⟨hf', hph⟩ := hpcb v f hp hp' hf hpl hm
    rw [view_pcb (Nat.not_lt.1 hlt), hf] at hb
    rw [view_pcb (Nat.not_lt.1 hlt), hf', ← hb, Option.map_some, Option.map_some, hph]

/-- A call of the heap of the running process, for the others. -/
theorem Within.carries (h : Within L s s' U) (hs : Sound L s) :
    Carries L L s s' (· ≠ s.cur) U := by
  refine ⟨fun p v b hP hp _ hv hunder hb => ?_, fun p q v f hpq hp hq hfp hfq => ?_, fun p hp hn => absurd hn hp⟩
  · by_cases hlt : v < kernelBase
    · rw [view_user hlt] at hb ⊢
      obtain ⟨f, hf, rfl⟩ := image_eq_some.1 hb
      refine image_eq_some.2 ⟨f, by rw [h.refs hP]; exact hf, h.user p v f hP hf fun hu hc => ?_⟩
      exact hunder f hu hc hf
    · obtain rfl := hv.resolve_right hlt
      obtain ⟨-, f, hf, hpl, -⟩ := hs.pcb_ref hp
      have hf' : Memory.refs L s' (.kernel v) = some f := by
        unfold Memory.refs refsOf entries at hf ⊢
        rwa [h.kernelPte]
      rw [view_pcb (Nat.not_lt.1 hlt), hf] at hb
      rw [view_pcb (Nat.not_lt.1 hlt), hf', ← hb, Option.map_some, Option.map_some,
        h.phys v f hf hpl.1 hP fun k hk => by cases (hs.pcb_only hp hk).2]
  · by_cases hpc : p = s.cur
    · have hqc : q ≠ s.cur := fun hc => hpq (hpc.trans hc.symm)
      rw [h.refs hqc] at hfq
      rw [hpc] at hfp
      exact ⟨f, hpc ▸ h.shared q v f hqc hfq hfp, hfq⟩
    · rw [h.refs hpc] at hfp
      by_cases hqc : q = s.cur
      · rw [hqc] at hfq
        exact ⟨f, hfp, hqc ▸ h.shared p v f hpc hfp hfq⟩
      · rw [h.refs hqc] at hfq
        exact ⟨f, hfp, hfq⟩

/-- Neither the pages nor what is in them changes. -/
theorem Carries.same (h : Sound L s) (hrefs : refs L s' = refs L s) (hph : s'.phys = s.phys) : Carries L L s s' P U :=
  .of_images h (fun p v _ _ _ _ => image_congr (by rw [hrefs]) fun f _ => by rw [hph])
    (fun p f _ _ hf _ _ => ⟨by rw [hrefs]; exact hf, by rw [hph]⟩)
    (fun p q v f _ _ _ hfp hfq => by
      rw [hrefs] at hfp hfq
      exact ⟨f, hfp, hfq⟩) fun p hp hn => absurd hn hp

/-- The frames of the pages are the same. -/
theorem shared_of_refs {q : Nat} (hrefs : ∀ p, L p ≠ none → refs L' s' (.pte p v) = refs L s (.pte p v)) (hp : L p ≠ none)
    (hq : L q ≠ none) (hfp : refs L' s' (.pte p v) = some f) (hfq : refs L' s' (.pte q v) = some f) :
    ∃ g, refs L s (.pte p v) = some g ∧ refs L s (.pte q v) = some g :=
  ⟨f, (hrefs p hp).symm.trans hfp, (hrefs q hq).symm.trans hfq⟩

/-- The page of a `task_struct` is below 4 GB. -/
theorem Sound.page_low {r : Option Nat} (h : Sound L s) (he : Memory.getKernelPages 1 s = .ok (r, s₁)) (hr : r = some v) :
    v < 0x100000 := by
  have hg := runs_of_ok (getKernelPages_spec h.frames (fun _ => le_refl 0) h.kernelBits (by decide) (by decide)) he
  rcases hg with ⟨hnone, -⟩ | ⟨w, hw, hg⟩
  · rw [hr] at hnone
    cases hnone
  · obtain ⟨i, hscan, hv, -⟩ := hg.run
    obtain ⟨m, hm, hlt, -⟩ := Bitmap.scan_one_lt hscan
    have hroom := h.room
    rw [hr] at hw
    have := Option.some.inj hw
    have hk : kHeapStart = 0xC0100 := rfl
    omega

theorem born_empty (h' : Sound (update L c (some d)) s') (hlow : c < 0x100000) {x : Bytes}
    (hf : refs (update L c (some d)) s' (.kernel c) = some f)
    (hb : s'.phys f = descBytes (4096 * c) x uBlockDesc 16 descCnt) (hp : update L c (some d) p ≠ none) (hn : L p = none) :
    p < 0x100000 ∧ HeapOk (s'.onCpu (update L c (some d)) p) Heap.none := by
  obtain rfl : p = c := by
    by_contra hne
    rw [update_of_ne hne] at hp
    exact hp hn
  obtain ⟨t, -, hr⟩ := h'.onCpu hp hlow
  have hkern := hr.kernelBase_le
  refine ⟨hlow, heap_empty (f := f) hr ?_ hb⟩
  rw [onCpu_walk h' hp hlow]
  have hge : ¬ (s'.onCpu (update L p (some d)) p).cur < kernelBase := Nat.not_lt.2 hkern
  rw [if_neg hge]
  exact hf

theorem execute_thread {u : Unit} (he : processExecute name s = .ok (u, s')) : ∃ c s₁ l,
    getKernelPages 1 s = .ok (some c, s₁) ∧ s'.threadAllList = l ++ [c] := by
  unfold processExecute at he
  obtain ⟨r, s₁, hget, he⟩ := bind_eq_ok.1 he
  obtain ⟨c, s₂, hc, he⟩ := bind_eq_ok.1 he
  obtain ⟨pid, s₃, -, he⟩ := bind_eq_ok.1 he
  obtain ⟨u', s₄, -, he⟩ := bind_eq_ok.1 he
  obtain ⟨r', s₅, -, he⟩ := bind_eq_ok.1 he
  obtain ⟨-, s₆, -, he⟩ := bind_eq_ok.1 he
  obtain ⟨-, s₇, -, he⟩ := bind_eq_ok.1 he
  cases he
  cases r with
  | none => cases hc
  | some w =>
    cases hc
    exact ⟨c, _, _, hget, rfl⟩

theorem fork_child {pid : Int} (he : Memory.sysFork s = .ok (pid, s')) (hpid : pid ≠ -1) : ∃ c s₁ l,
    getKernelPages 1 s = .ok (some c, s₁) ∧ s'.threadAllList = l ++ [c] := by
  unfold Memory.sysFork at he
  obtain ⟨p, s₀, hread, he⟩ := bind_eq_ok.1 he
  cases hread
  obtain ⟨r, s₁, hget, he⟩ := bind_eq_ok.1 he
  cases r with
  | none =>
    cases he
    exact absurd rfl hpid
  | some c =>
    obtain ⟨t, s₂, -, he⟩ := bind_eq_ok.1 he
    obtain ⟨-, s₃, -, he⟩ := bind_eq_ok.1 he
    obtain ⟨r, s₄, -, he⟩ := bind_eq_ok.1 he
    split at he
    · cases he
      exact absurd rfl hpid
    · obtain ⟨u, s₅, hch, he⟩ := bind_eq_ok.1 he
      cases hch
      obtain ⟨t', s₆, htask, he⟩ := bind_eq_ok.1 he
      cases he
      rw [(task_ok htask).2]
      exact ⟨c, _, _, hget, rfl⟩

end

end Enix.Memory
