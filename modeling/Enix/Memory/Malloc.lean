import Enix.Memory.HeapBlocks

/-!
# `sys_malloc` of a process

* `takeBlock_spec`: the first block of a list becomes live.
* `initArena_spec`: an arena whose blocks are all free.
* `mallocSmall_spec`, `mallocLarge_spec`: `sys_malloc`, by what `malloc_page` does.
* `sysMalloc_spec`: a block is handed out (`Hands`), or nothing changes.
-/
set_option autoImplicit false

namespace Enix.Memory
open Enix.Core Enix.Kernel Function

namespace Heap

/-- What `sys_malloc(size)` may hand out, and the heap that is left. -/
inductive Handed (H : Heap) (size : Nat) : Nat → Heap → Prop
  | block (k b : Nat) (rest : List Nat) : size ≤ 1024 → fit size 0 descCnt = k → H.free k = b :: rest →
      Handed H size b (H.take k)
  | arena (k v : Nat) : size ≤ 1024 → fit size 0 descCnt = k → H.free k = [] → ¬ H.used v →
      Handed H size (blockAt v k 0) ((H.addArena v k).take k)
  | large (v : Nat) : 1024 < size → (∀ u, v ≤ u → u < v + largePages size → ¬ H.used u) →
      Handed H size (4096 * v + arenaSize) (H.addLarge v (largePages size))

end Heap

/-- The pages that `sys_malloc(size)` asks `malloc_page` for, if it does. -/
def pagesFor (size : Nat) : Nat := if 1024 < size then largePages size else 1

section
variable {L : Spaces} {s s₁ s' : Vm} {t : TaskStruct} {H : Heap} {A : Nat → Prop} {a b i j k v u n x : Nat}
  {rest : List Nat}

theorem nodes_books (hk : k < descCnt) (ha : onNodes (· ∈ listNodes (s.desc k + 8) (H.free k)) a) : H.books s a := by
  obtain ⟨n, hn, h1, h2⟩ := ha
  exact books_nodes hk hn h1 h2

/-! ## Taking a block -/

theorem takeBlock_spec (hr : Running L s t) (h : HeapOk s H) (hk : k < descCnt) (hf : H.free k = b :: rest) :
    ∃ s', takeBlock (s.desc k) s = .ok (b, s') ∧ HeapOk s' (H.take k) ∧
      Pokes L s s' (fun a => H.books s a ∨ b ≤ a ∧ a < b + blockSize k) ∧
      ∀ a, b ≤ a → a < b + blockSize k → s'.byteAt a = 0 := by
  have hbk : b ∈ H.free k := by rw [hf]; exact List.mem_cons_self
  obtain ⟨harena, i, hi, hbi⟩ := h.block k hk b hbk
  have hsm := h.small _ k harena
  have hpage := blockAt_page (v := b / 4096) hi
  rw [← hbi] at hpage
  have hcur := hr.kernelBase_le
  have hdp := desc_page (s := s) hk
  have huser := hsm.user
  have hl := h.list k hk
  have hl₀ := hl
  rw [hf] at hl₀
  obtain ⟨s₁, hrun₁, hp₁, hl₁⟩ := listPop_spec hr hl₀
  have h₁ := hp₁.running hr
  have hnode : ∀ a, onNodes (· ∈ listNodes (s.desc k + 8) rest) a →
      onNodes (· ∈ listNodes (s.desc k + 8) (H.free k)) a := fun a => onNodes_mono fun n hn => by
    rw [mem_listNodes] at hn ⊢
    rw [hf]
    rcases hn with hn | hn | hn
    · exact .inl hn
    · exact .inr (.inl (List.mem_cons_of_mem _ hn))
    · exact .inr (.inr hn)
  -- the nodes left are apart from the block and from the header of its arena
  have hsafe : ∀ n ∈ listNodes (s.desc k + 8) rest, ∀ a, n ≤ a → a < n + 8 →
      ¬ (4096 * (b / 4096) ≤ a ∧ a < 4096 * (b / 4096) + 12) ∧ ¬ (b ≤ a ∧ a < b + blockSize k) := by
    intro n hn a h1 h2
    rcases mem_listNodes.1 hn with rfl | hn' | rfl
    · omega
    · have hnk : n ∈ H.free k := by rw [hf]; exact List.mem_cons_of_mem _ hn'
      obtain ⟨harn, j, hj, hnj⟩ := h.block k hk n hnk
      have hpn := blockAt_page (v := n / 4096) hj
      rw [← hnj] at hpn
      have hne : blockAt (b / 4096) k i ≠ blockAt (n / 4096) k j := by
        rw [← hbi, ← hnj]
        rintro rfl
        have hd := hl₀.list.nodup_mid
        exact (List.nodup_cons.1 hd).1 hn'
      have hap := blockAt_apart hi hj (fun _ => rfl) hne
      rw [← hbi, ← hnj] at hap
      have := blockSize_ge k
      omega
    · omega
  have hdesc₁ : s₁.wordAt (s.desc k) = blockSize k := by
    rw [hp₁.word (hr.own_desc hk (le_refl _) (by omega)) (by have := desc_mod s k; omega) fun i hi hc => ?_]
    · exact h.size k hk
    · obtain ⟨n, hn, h1, h2⟩ := hc
      rcases mem_listNodes.1 hn with rfl | hn' | rfl
      · omega
      · have hnk : n ∈ H.free k := by rw [hf]; exact List.mem_cons_of_mem _ hn'
        have := (h.user (h.used_free hk hnk)).1
        have := (hl.node n (mem_listNodes.2 (.inr (.inl hnk)))).fits
        omega
      · omega
  obtain ⟨s₂, hrun₂, hp₂, hz₂⟩ := zeroBytes_spec (blockSize k) b s₁ h₁ fun i hi => by
    rw [hp₁.own hr, show (b + i) / 4096 = b / 4096 by omega]
    exact hsm.own
  have h₂ := hp₂.running h₁
  have hown : s.own ((4096 * (b / 4096) + 4) / 4096) := by
    rw [show (4096 * (b / 4096) + 4) / 4096 = b / 4096 by omega]
    exact hsm.own
  have hcnt₂ : s₂.wordAt (4096 * (b / 4096) + 4) = H.freeCnt (b / 4096) k := by
    rw [hp₂.word ((hp₁.own hr).2 hown) (by omega) fun i hi hc => by omega,
      hp₁.word hown (by omega) fun i hi hc => ?_]
    · exact hsm.freeCnt
    · obtain ⟨n, hn, h1, h2⟩ := hc
      exact (hsafe n hn _ h1 h2).1 ⟨by omega, by omega⟩
  have hcons : H.freeCnt (b / 4096) k = (H.take k).freeCnt (b / 4096) k + 1 := by
    unfold Heap.freeCnt Heap.take
    simp only [update_self, hf, List.tail_cons]
    rw [List.filter_cons_of_pos (by simp), List.length_cons]
  have hlt : H.freeCnt (b / 4096) k < 4294967296 := by
    rw [← hcnt₂]
    exact le32_lt _ _
  obtain ⟨s', hrun', hp', hw'⟩ := storeWord_spec (a := 4096 * (b / 4096) + 4) h₂
    ((hp₂.own h₁).2 ((hp₁.own hr).2 hown)) (by omega) (w := (H.take k).freeCnt (b / 4096) k) (by omega)
  have hA : Pokes L s s' fun a => onNodes (· ∈ listNodes (s.desc k + 8) rest) a ∨ b ≤ a ∧ a < b + blockSize k ∨
      4096 * (b / 4096) + 4 ≤ a ∧ a < 4096 * (b / 4096) + 8 :=
    ((hp₁.mono fun a ha => .inl ha).trans hr ((hp₂.mono fun a ha => .inr (.inl ha)).trans h₁
      (hp'.mono fun a ha => .inr (.inr ⟨ha.1, by omega⟩))))
  refine ⟨s', ?_, ?_, hA.mono fun a ha => ?_, fun a h1 h2 => ?_⟩
  · unfold takeBlock
    have hown₂ := (hp₂.own h₁).2 ((hp₁.own hr).2 hown)
    rw [bind_ok hrun₁, bind_ok (loadWord_spec ((hp₁.own hr).2 (hr.own_desc hk (le_refl _) (by omega)))
      (by have := desc_mod s k; omega)), hdesc₁, bind_ok hrun₂]
    unfold block2arena
    rw [bind_ok (loadWord_spec hown₂ (by omega)), hcnt₂, show (H.freeCnt (b / 4096) k + 4294967295) % 4294967296 =
      (H.take k).freeCnt (b / 4096) k by omega, bind_ok hrun']
    rfl
  · refine h.edit hr hA hk (fun a ha => ?_) huser (.inr harena) (fun u n hu hc => h.mixed _ _ _ _ harena hu hc)
      (fun j hj => update_of_ne hj ..) (fun u hu => rfl) rfl (fun u hu => ?_) ?_ ?_ ?_
    · rcases ha with ha | ha | ha
      · exact .inl (hnode a ha)
      · exact .inr (by omega)
      · exact .inr (by omega)
    · unfold Heap.freeCnt Heap.take
      simp only [update_self, hf, List.tail_cons]
      rw [List.filter_cons_of_neg (by simpa using fun hc => hu hc.symm)]
    · have htail : (H.take k).free k = rest := by
        unfold Heap.take
        simp only [update_self, hf, List.tail_cons]
      rw [htail]
      refine (hl₁.pokes h₁ hp₂ fun n hn a h1 h2 ha => (hsafe n hn a h1 h2).2 ha).pokes h₂ hp' fun n hn a h1 h2 ha => ?_
      exact (hsafe n hn a h1 h2).1 ⟨by omega, by omega⟩
    · intro c hc
      refine h.block k hk c ?_
      unfold Heap.take at hc
      simp only [update_self] at hc
      exact List.mem_of_mem_tail hc
    · intro j hj
      have hjk : j = k := by
        have hj' : H.arena (b / 4096) = some j := hj
        rw [harena] at hj'
        exact (Option.some.inj hj').symm
      have hdesc := hA.desc k
      rw [hjk]
      refine ⟨hk, huser, by rw [hA.walk hr]; exact hsm.page, ?_, hw', ?_⟩
      · rw [hA.word (by rw [show 4096 * (b / 4096) / 4096 = b / 4096 by omega]; exact hsm.own) (by omega), hdesc]
        · exact hsm.desc
        · rintro i hi (⟨n, hn, h1, h2⟩ | hc | hc)
          · exact (hsafe n hn _ h1 h2).1 ⟨by omega, by omega⟩
          · omega
          · omega
      · rw [hA.byte _ (by rw [show (4096 * (b / 4096) + 8) / 4096 = b / 4096 by omega]; exact hsm.own)]
        · exact hsm.large
        · rintro (⟨n, hn, h1, h2⟩ | hc | hc)
          · exact (hsafe n hn _ h1 h2).1 ⟨by omega, by omega⟩
          · omega
          · omega
  · rcases ha with ha | ha | ha
    · exact .inl (nodes_books hk (hnode a ha))
    · exact .inr ha
    · exact .inl (.inr (.inl ⟨b / 4096, .inl (by rw [harena]; simp), by omega, by unfold arenaSize; omega⟩))
  · rw [hp'.byte a ((hp₂.own h₁).2 ((hp₁.own hr).2 (by rw [show a / 4096 = b / 4096 by omega]; exact hsm.own))) (by omega)]
    exact hz₂ a h1 h2

/-! ## A new arena -/

/-- The node of a block. -/
theorem node_block (hv : s.own v) (hi : i < blocksPerArena k) : Node s (blockAt v k i) := by
  have hp := blockAt_page (v := v) hi
  have hm := blockAt_mod v k i
  have := blockSize_ge k
  refine ⟨?_, hm, by omega⟩
  rw [blockAt_div hi]
  exact hv

/-- The nodes of a list whose blocks are those of one arena. -/
def arenaNodes (s : Vm) (v k n : Nat) : Prop :=
  n = s.desc k + 8 ∨ n = s.desc k + 16 ∨ ∃ i, i < blocksPerArena k ∧ n = blockAt v k i

/-- They leave the header of the arena and the words of the descriptors alone. -/
theorem arenaNodes_apart (h : onNodes (arenaNodes s v k) a) :
    (s.desc k + 8 ≤ a ∧ a < s.desc k + 24) ∨ 4096 * v + 12 ≤ a ∧ a < 4096 * v + 4096 := by
  obtain ⟨n, hn | hn | ⟨i, hi, hn⟩, h1, h2⟩ := h
  · exact .inl (by omega)
  · exact .inl (by omega)
  · have hp := blockAt_page (v := v) hi
    have := blockSize_ge k
    exact .inr (by omega)

theorem appendBlocks_spec (hk : k < descCnt) (hv : v < kernelBase) : ∀ n i s, Running L s t → s.own v →
    ListAt s (s.desc k + 8) (Heap.blocks v k i) → s.wordAt (4096 * v) = s.desc k → s.wordAt (s.desc k) = blockSize k →
    i + n = blocksPerArena k → ∃ s', appendBlocks v i n s = .ok ((), s') ∧ Pokes L s s' (onNodes (arenaNodes s v k)) ∧
      ListAt s' (s.desc k + 8) (Heap.blocks v k (blocksPerArena k)) := by
  intro n
  induction n with
  | zero =>
    intro i s hr _ hl _ _ hi
    rw [← hi]
    exact ⟨s, rfl, .refl hr.sound _, hl⟩
  | succ n ih =>
    intro i s hr hown hl hhead hsize hi
    have hcur := hr.kernelBase_le
    have hdp := desc_page (s := s) hk
    have hdm := desc_mod s k
    have hown₀ : s.own (4096 * v / 4096) := by rwa [show 4096 * v / 4096 = v by omega]
    have hownd := hr.own_desc hk (le_refl (s.desc k)) (by omega)
    have hib : i < blocksPerArena k := by omega
    have hnode := node_block hown hib
    have hbp := blockAt_page (v := v) hib
    have hnot : blockAt v k i ∉ Heap.blocks v k i := by
      intro hc
      obtain ⟨j, hj, he⟩ := mem_blocks.1 hc
      have := blockAt_inj he
      omega
    have hnodes : blockAt v k i ∉ listNodes (s.desc k + 8) (Heap.blocks v k i) := by
      rw [mem_listNodes]
      rintro (hc | hc | hc)
      · omega
      · exact hnot hc
      · omega
    obtain ⟨s₁, hrun₁, hp₁, hl₁⟩ := listAppend_spec hr hl hnode hnodes
    have h₁ := hp₁.running hr
    have hp : Pokes L s s₁ (onNodes (arenaNodes s v k)) := hp₁.mono fun a => onNodes_mono fun x hx => by
      rcases hx with hx | rfl
      · rcases mem_listNodes.1 hx with hx | hx | hx
        · exact .inl hx
        · obtain ⟨j, hj, he⟩ := mem_blocks.1 hx
          exact .inr (.inr ⟨j, by omega, he⟩)
        · exact .inr (.inl hx)
      · exact .inr (.inr ⟨i, hib, rfl⟩)
    have hword : ∀ a, s.own (a / 4096) → a % 4 = 0 → (a = 4096 * v ∨ a = s.desc k) → s₁.wordAt a = s.wordAt a := by
      intro a ha h4 hav
      refine hp.word ha h4 fun j hj hc => ?_
      have hap := arenaNodes_apart hc
      omega
    have hd := hp.desc k
    obtain ⟨s', hrun', hp', hl'⟩ := ih (i + 1) s₁ h₁ ((hp.own hr).2 hown) (by rw [blocks_succ, hd]; exact hl₁)
      (by rw [hword _ hown₀ (by omega) (.inl rfl), hd]; exact hhead)
      (by rw [hd, hword _ hownd (by omega) (.inr rfl)]; exact hsize) (by omega)
    rw [hd] at hl'
    refine ⟨s', ?_, hp.trans hr (hp'.mono fun a => onNodes_mono fun x hx => ?_), hl'⟩
    · have hload := loadWord_spec hown₀ (by omega)
      rw [hhead] at hload
      have hblock : arena2block v i s = .ok (blockAt v k i, s) := by
        unfold arena2block
        rw [bind_ok hload, bind_ok (loadWord_spec hownd (by omega)), hsize]
        rfl
      unfold appendBlocks
      rw [bind_ok hblock, bind_ok hload, bind_ok (elemFind_spec hr hl _), decide_eq_false hnot, bind_ok (guard_run rfl _ s),
        bind_ok hload, bind_ok hrun₁]
      exact hrun'
    · unfold arenaNodes at hx ⊢
      rwa [hd] at hx

/-- An arena in a page that the heap does not have yet. -/
theorem initArena_spec (hr : Running L s t) (h : HeapOk s H) (hk : k < descCnt) (hf : H.free k = []) (hv : v < kernelBase)
    (hown : s.own v) (hnew : ¬ H.used v) : ∃ s', initArena v (s.desc k) s = .ok ((), s') ∧
      HeapOk s' (H.addArena v k) ∧ Pokes L s s' (fun a => H.books s a ∨ a / 4096 = v) := by
  have hcur := hr.kernelBase_le
  have hdp := desc_page (s := s) hk
  have hdm := desc_mod s k
  have hat : ∀ o, o < 4096 → (4096 * v + o) / 4096 = v := fun o ho => by omega
  have hownA : ∀ {r : Vm}, r.own v → ∀ o, o < 4096 → r.own ((4096 * v + o) / 4096) := fun ho o h => by rwa [hat o h]
  have hownH : ∀ {r : Vm}, r.own v → r.own (4096 * v / 4096) := fun ho => by rwa [show 4096 * v / 4096 = v by omega]
  have hpc : blocksPerArena k < 4294967296 := by
    have hle : blocksPerArena k ≤ 4084 := Nat.div_le_self (4096 - arenaSize) (blockSize k)
    omega
  obtain ⟨s₁, hrun₁, hp₁, -⟩ := zeroPage_spec hr hown
  have h₁ := hp₁.running hr
  obtain ⟨s₂, hrun₂, hp₂, hw₂⟩ := storeWord_spec h₁ (hownH ((hp₁.own hr).2 hown)) (by omega)
    (w := s.desc k) (by have := hr.desc_lt hk; omega)
  have hq₂ := hp₁.trans hr (hp₂.mono (B := fun b => b / 4096 = v) fun a ha => by omega)
  have h₂ := hq₂.running hr
  obtain ⟨s₃, hrun₃, hp₃, hb₃⟩ := storeByte_spec h₂ (hownA ((hq₂.own hr).2 hown) 8 (by omega)) 0
  have hq₃ := hq₂.trans hr (hp₃.mono (B := fun b => b / 4096 = v) fun a ha => by omega)
  have h₃ := hq₃.running hr
  obtain ⟨s₄, hrun₄, hp₄, hw₄⟩ := storeWord_spec h₃ (hownA ((hq₃.own hr).2 hown) 4 (by omega)) (by omega) hpc
  have hq₄ := hq₃.trans hr (hp₄.mono (B := fun b => b / 4096 = v) fun a ha => by omega)
  have h₄ := hq₄.running hr
  have hbooks : ∀ a, H.books s a → ¬ a / 4096 = v := fun a ha hc => by
    rcases h.books_page ha with hu | hu
    · omega
    · exact hnew (hc ▸ hu)
  have hok₃ := h.pokes hr hq₃ hbooks
  have hok := h.pokes hr hq₄ hbooks
  have hown₂ := (hq₂.own hr).2 hown
  have hown₃ := (hq₃.own hr).2 hown
  have hown₄ := (hq₄.own hr).2 hown
  have hd := hq₄.desc k
  have hhead₄ : s₄.wordAt (4096 * v) = s.desc k := by
    rw [hp₄.word (hownH hown₃) (by omega) fun i hi hc => by omega,
      hp₃.word (hownH hown₂) (by omega) fun i hi hc => by omega]
    exact hw₂
  have hlarge₄ : s₄.byteAt (4096 * v + 8) = 0 := by
    rw [hp₄.byte _ (hownA hown₃ 8 (by omega)) (by omega)]
    exact hb₃
  have hl₄ : ListAt s₄ (s₄.desc k + 8) (Heap.blocks v k 0) := by
    have hl := hok.list k hk
    rwa [hf] at hl
  obtain ⟨s', hrun', hp', hl'⟩ := appendBlocks_spec hk hv (blocksPerArena k) 0 s₄ h₄ hown₄ hl₄ (by rw [hd]; exact hhead₄)
    (hok.size k hk) (by omega)
  have hcount : s₃.wordAt (s.desc k + 4) = blocksPerArena k := by
    rw [← hq₃.desc k]
    exact hok₃.count k hk
  refine ⟨s', ?_, ?_, ?_⟩
  · unfold initArena
    rw [bind_ok hrun₁, bind_ok hrun₂, bind_ok hrun₃,
      bind_ok (loadWord_spec ((hq₃.own hr).2 (hr.own_desc hk (by omega) (by omega))) (by omega)), hcount, bind_ok hrun₄]
    exact hrun'
  · have hnv : H.arena v = none := by
      by_contra hc
      exact hnew (.inl hc)
    refine hok.edit h₄ hp' hk (fun a ha => ?_) hv (.inl hnv) (fun u n hu hc => hnew (.inr ⟨u, n, hu, hc.1, hc.2⟩))
      (fun j hj => update_of_ne hj ..) (fun u hu => update_of_ne hu ..) rfl (fun u hu => ?_) ?_ ?_ ?_
    · obtain ⟨n, hn | hn | ⟨i, hi, rfl⟩, h1, h2⟩ := ha
      · exact .inl ⟨n, mem_listNodes.2 (.inl hn), h1, h2⟩
      · exact .inl ⟨n, mem_listNodes.2 (.inr (.inr hn)), h1, h2⟩
      · have hp := blockAt_page (v := v) hi
        have := blockSize_ge k
        exact .inr (by omega)
    · unfold Heap.freeCnt Heap.addArena
      simp only [update_self, hf]
      rw [List.filter_eq_nil_iff.2 fun c hc => ?_]
      · rfl
      · obtain ⟨i, hi, rfl⟩ := mem_blocks.1 hc
        rw [blockAt_div hi]
        simpa using fun hc => hu hc.symm
    · unfold Heap.addArena
      simp only [update_self]
      exact hl'
    · intro c hc
      unfold Heap.addArena at hc ⊢
      simp only [update_self] at hc ⊢
      obtain ⟨i, hi, rfl⟩ := mem_blocks.1 hc
      rw [blockAt_div hi, update_self]
      exact ⟨rfl, i, hi, rfl⟩
    · intro j hj
      have hjk : j = k := by
        unfold Heap.addArena at hj
        simp only [update_self] at hj
        exact (Option.some.inj hj).symm
      have hap : ∀ a, onNodes (arenaNodes s₄ v k) a → 4096 * v ≤ a → a < 4096 * v + 12 → False := fun a ha h1 h2 => by
        have := arenaNodes_apart ha
        omega
      have hfull : (H.addArena v k).freeCnt v k = blocksPerArena k := by
        unfold Heap.freeCnt Heap.addArena
        simp only [update_self]
        rw [List.filter_eq_self.2 fun c hc => ?_]
        · exact blocks_length v k _
        · obtain ⟨i, hi, rfl⟩ := mem_blocks.1 hc
          rw [blockAt_div hi]
          simp
      rw [hjk]
      refine ⟨hk, hv, by rw [hp'.walk h₄]; exact hown₄.2, ?_, ?_, ?_⟩
      · rw [hp'.word (hownH hown₄) (by omega) fun i hi hc => hap _ hc (by omega) (by omega), hp'.desc, hd]
        exact hhead₄
      · rw [hp'.word (hownA hown₄ 4 (by omega)) (by omega) fun i hi hc => hap _ hc (by omega) (by omega), hfull]
        exact hw₄
      · rw [hp'.byte _ (hownA hown₄ 8 (by omega)) fun hc => hap _ hc (by omega) (by omega)]
        exact hlarge₄
  · refine (hq₄.mono fun a ha => .inr ha).trans hr (hp'.mono fun a ha => ?_)
    have hap := arenaNodes_apart ha
    rw [hd] at hap
    rcases hap with ⟨h1, h2⟩ | ⟨h1, h2⟩
    · exact .inl (.inl ⟨k, hk, by omega, by unfold descSize; omega⟩)
    · exact .inr (by omega)

/-! ## `sys_malloc` -/

theorem HeapOk.books_user (h : HeapOk s H) (ha : H.books s a) : a / 4096 = s.cur ∨ a / 4096 < kernelBase ∧ H.used (a / 4096) :=
  (h.books_page ha).imp_right fun hu => ⟨(h.user hu).1, hu⟩

/-- The first descriptor whose blocks are large enough. -/
theorem findDesc_spec (hr : Running L s t) (h : HeapOk s H) (size : Nat) : ∀ n i, i + n = descCnt →
    findDesc (s.desc 0) size i n s = .ok (fit size i n, s) := by
  intro n
  induction n with
  | zero =>
    intro i _
    rfl
  | succ n ih =>
    intro i hi
    have hik : i < descCnt := by omega
    have hd : s.desc 0 + descSize * i = s.desc i := by unfold Vm.desc; omega
    have hdm := desc_mod s i
    have hload := loadWord_spec (hr.own_desc hik (le_refl (s.desc i)) (by omega)) (by omega)
    rw [h.size i hik] at hload
    unfold findDesc fit
    rw [hd, bind_ok hload]
    by_cases hs : size ≤ blockSize i
    · rw [if_pos hs, if_pos hs]
      rfl
    · rw [if_neg hs, if_neg hs]
      exact ih (i + 1) (by omega)

/-- What `malloc_page` gives a process. -/
theorem mallocPage_cases (hr : Running L s t) (n : Nat) : (∃ x, mallocPage .user n s = .error x) ∨
    mallocPage .user n s = .ok (none, s) ∨ ∃ v s', mallocPage .user n s = .ok (some v, s') ∧ Sound L s' ∧
      GotUser L s s' s.cur v n := by
  have hm := hr.sound.mallocUser hr.task hr.live n
  cases he : mallocPage .user n s with
  | error x => exact .inl ⟨x, rfl⟩
  | ok r =>
    have hq := runs_of_ok hm (show mallocPage .user n s = .ok (r.1, r.2) from he)
    rcases hq with ⟨hnone, -, hsame, -⟩ | ⟨v, hsome, hs, hg⟩
    · exact .inr (.inl (by rw [← hnone, ← hsame]))
    · exact .inr (.inr ⟨v, r.2, by rw [← hsome], hs, hg⟩)

/-- `sys_malloc(size)` has handed out the block at `b`: it is new to the heap and
zero, and nothing has changed but it and the heap's books. -/
structure Hands (L : Spaces) (H : Heap) (t : TaskStruct) (size : Nat) (s s' : Vm) (b : Nat) (H' : Heap) : Prop where
  handed : H.Handed size b H'
  ok : HeapOk s' H'
  running : Running L s' t
  within : Within L s s' H.used
  fresh : ∀ v, H'.used v → ¬ H.used v → ¬ s.own v
  leaves : Leaves s s' fun a => H.books s a ∨ b ≤ a ∧ a < b + usable size
  zero : ∀ a, b ≤ a → a < b + usable size → s'.byteAt a = 0

/-- After `sys_malloc(size)`, unless `malloc_page` does not come back. -/
structure Malloced (L : Spaces) (env : HeapEnv) (H : Heap) (t : TaskStruct) (size : Nat) (s : Vm) (r : Option Nat) (s' : Vm) :
    Prop where
  fails : r = none → s' = s ∧ (size = 0 ∨ env.poolSize .user ≤ size ∨ mallocPage .user (pagesFor size) s = .ok (none, s))
  hands : ∀ b, r = some b → 0 < size ∧ ∃ H', Hands L H t size s s' b H'

/-- New pages are those of nobody. -/
theorem GotUser.not_own (hr : Running L s t) (hs : Sound L s') (hg : GotUser L s s' s.cur v n) (h1 : v ≤ u) (h2 : u < v + n) :
    ¬ s.own u := fun hc => hc.2 (by
  rw [walk_user hr.inUse (hg.own hr hs h1 h2).1, refs_eq_none, hg.old u h1 h2])

theorem GotUser.unshared (hg : GotUser L s s' s.cur v n) {p f : Nat} (hp : p ≠ s.cur) (h1 : v ≤ u) (h2 : u < v + n)
    (hf : refs L s' (.pte p u) = some f) : refs L s' (.pte s.cur u) ≠ some f := by
  obtain ⟨g, hg', -, hfree⟩ := hg.new u h1 h2
  intro hc
  obtain ⟨w, hw, rfl⟩ := refs_eq_some.1 hc
  rw [hg'] at hw
  rw [← Option.some.inj hw, frame_pgRw] at hf
  refine hfree (.pte p u) ?_
  rw [← hf]
  unfold refs refsOf
  rw [hg.page p u hp]

/-- The small half. -/
theorem mallocSmall_spec (env : HeapEnv) (hr : Running L s t) (h : HeapOk s H) {size : Nat} (h0 : 0 < size)
    (hs : size ≤ 1024) : runs (fun x => mallocPage .user 1 s = .error x) (mallocSmall .user (s.desc 0) size)
      (Malloced L env H t size s) s := by
  have hfind := findDesc_spec hr h size descCnt 0 rfl
  have hk7 := fit_lt hs
  have hus : usable size = blockSize (fit size 0 descCnt) := if_neg (by omega)
  generalize hk : fit size 0 descCnt = k at hfind hk7 hus
  have hd : s.desc 0 + descSize * k = s.desc k := by unfold Vm.desc; omega
  have hpages : pagesFor size = 1 := if_neg (by omega)
  unfold mallocSmall
  rw [runs_bind_ok hfind, runs_bind_ok (guard_run hk7 _ s)]
  simp only [hd]
  rw [runs_bind_ok (listEmpty_spec (h.list k hk7))]
  cases hf : H.free k with
  | cons b rest =>
    simp only [reduceCtorEq, decide_false, Bool.false_eq_true, if_false]
    obtain ⟨s', hrun, hok, hp, hz⟩ := takeBlock_spec hr h hk7 hf
    rw [runs_bind_ok hrun, runs_pure]
    refine ⟨fun hc => (Option.some_ne_none _ hc).elim, fun b' hb => ⟨h0, H.take k, ?_⟩⟩
    cases hb
    rw [← hus] at hp hz
    obtain ⟨harena, i, hi, hbi⟩ := h.block k hk7 b (by rw [hf]; exact List.mem_cons_self)
    have hpage := blockAt_page (v := b / 4096) hi
    rw [← hbi, ← hus] at hpage
    have hub := h.used_free hk7 (b := b) (by rw [hf]; exact List.mem_cons_self)
    refine ⟨.block k b rest hs hk hf, hok, hp.running hr, hp.within hr fun a ha => ?_, fun v hu hn => absurd hu hn,
      hp.leaves hr, hz⟩
    rcases ha with ha | ⟨h1, h2⟩
    · exact h.books_user ha
    · rw [show a / 4096 = b / 4096 by omega]
      exact .inr ⟨(h.user hub).1, hub⟩
  | nil =>
    simp only [decide_true, if_true]
    rcases mallocPage_cases hr 1 with ⟨x, he⟩ | he | ⟨v, s₁, he, hs₁, hg⟩
    · unfold runs
      rw [bind_error he]
      exact he
    · rw [runs_bind_ok he, runs_pure]
      exact ⟨fun _ => ⟨rfl, .inr (.inr (hpages ▸ he))⟩, fun b hb => by cases hb⟩
    · have h₁ := Effect.running hr hs₁ hg.toEffect
      have hsame := hg.samePages hr hs₁
      have hc₁ : s₁.cur = s.cur := hg.rest.cur
      have hok₁ := h.samePages hr hc₁ hsame fun _ _ => trivial
      obtain ⟨hlt, hown⟩ := hg.own hr hs₁ (le_refl v) (by omega)
      have hnew := hg.not_used hr h (le_refl v) (by omega)
      have hd₁ : s₁.desc k = s.desc k := by
        unfold Vm.desc
        rw [hc₁]
      obtain ⟨s₂, hrun₂, hok₂, hp₂⟩ := initArena_spec h₁ hok₁ hk7 hf hlt hown hnew
      have h₂ := hp₂.running h₁
      obtain ⟨rest, hfree, -⟩ := addArena_free (H := H) (v := v) hk7
      have hd₂ : s₂.desc k = s.desc k := (hp₂.desc k).trans hd₁
      obtain ⟨s', hrun', hok', hp', hz⟩ := takeBlock_spec h₂ hok₂ hk7 hfree
      rw [hd₁] at hrun₂
      rw [hd₂] at hrun'
      rw [runs_bind_ok he]
      simp only
      rw [runs_bind_ok hrun₂, runs_bind_ok hrun', runs_pure]
      have hcur : s₂.cur = s.cur := hp₂.toStored.cur.trans hc₁
      refine ⟨fun hc => (Option.some_ne_none _ hc).elim, fun b hb => ⟨h0, (H.addArena v k).take k, ?_⟩⟩
      cases hb
      rw [← hus] at hp' hz
      have hpage := blockAt_page (v := v) (blocksPerArena_pos hk7)
      rw [← hus] at hpage
      -- what is stored to are the books of the old heap, and the new page
      have hbooks₂ : ∀ a, (H.books s₁ a ∨ a / 4096 = v) → H.books s a ∨ a / 4096 = v := fun a ha =>
        ha.imp_left (books_cur hc₁).1
      have hbooks' : ∀ a, ((H.addArena v k).books s₂ a ∨ blockAt v k 0 ≤ a ∧ a < blockAt v k 0 + usable size) →
          H.books s a ∨ a / 4096 = v := by
        intro a ha
        rcases ha with ha | ha
        · exact (Heap.addArena_books ha).imp_left (books_cur hcur).1
        · exact .inr (by omega)
      have hp : Pokes L s₁ s' fun a => H.books s a ∨ a / 4096 = v := (hp₂.mono hbooks₂).trans h₁ (hp'.mono hbooks')
      refine ⟨.arena k v hs hk hf hnew, hok', hp'.running h₂, (hg.within hr _).trans ?_, fun u hu hn => ?_, ?_, hz⟩
      · refine (hp.within h₁ (U := fun u => H.used u ∨ u = v) fun a ha => ?_).narrow fun u hu hnu p f hpc hf' => ?_
        · rcases ha with ha | ha
          · rcases h.books_user ha with hc | ⟨h1, h2⟩
            · exact .inl (hc.trans hc₁.symm)
            · exact .inr ⟨h1, .inl h2⟩
          · rw [ha]
            exact .inr ⟨hlt, .inr rfl⟩
        · obtain rfl := hu.resolve_left hnu
          rw [hc₁] at hpc ⊢
          exact hg.unshared hpc (le_refl u) (by omega) hf'
      · have huv : u = v := by
          by_contra hne
          refine hn (hu.imp (fun ha => ?_) fun hb => hb)
          unfold Heap.take Heap.addArena at ha
          simp only [update_of_ne hne] at ha
          exact ha
        rw [huv]
        exact hg.not_own hr hs₁ (le_refl v) (by omega)
      · refine (hsame.leaves.trans (hp.leaves h₁)).mono fun a hown' ha => ?_
        rcases ha with ha | ha | ha
        · exact absurd trivial ha
        · exact .inl ha
        · exact absurd (by rwa [ha] at hown') (hg.not_own hr hs₁ (le_refl v) (by omega))

theorem HeapOk.addLarge (h : HeapOk s H) (hl : LargeArena s v n) (hnew : ∀ u, v ≤ u → u < v + n → ¬ H.used u) :
    HeapOk s (H.addLarge v n) where
  size := h.size
  count := h.count
  list := h.list
  block := h.block
  small u k hu := by
    have hs := h.small u k hu
    exact ⟨hs.kind, hs.user, hs.page, hs.desc, hs.freeCnt, hs.large⟩
  big u m hu := by
    unfold Heap.addLarge at hu
    by_cases huv : u = v
    · rw [huv] at hu ⊢
      simp only [update_self] at hu
      rw [← Option.some.inj hu]
      exact hl
    · simp only [update_of_ne huv] at hu
      exact h.big u m hu
  mixed u k w m hu hw hc := by
    unfold Heap.addLarge at hu hw
    by_cases hwv : w = v
    · rw [hwv] at hw hc
      simp only [update_self] at hw
      rw [← Option.some.inj hw] at hc
      exact hnew u hc.1 hc.2 (.inl (by rw [hu]; simp))
    · simp only [update_of_ne hwv] at hw
      exact h.mixed u k w m hu hw hc
  apart u m w l hu hw := by
    have hnot : ∀ x y, H.large x = some y → x + y ≤ v ∨ v + n ≤ x := by
      intro x y hx
      have hpos := (h.big x y hx).pos
      by_contra hc
      by_cases hxv : v ≤ x
      · exact hnew x hxv (by omega) (.inr ⟨x, y, hx, le_refl x, by omega⟩)
      · exact hnew v (le_refl v) (by have := hl.pos; omega) (.inr ⟨x, y, hx, by omega, by omega⟩)
    unfold Heap.addLarge at hu hw
    by_cases huv : u = v
    · by_cases hwv : w = v
      · exact .inl (huv.trans hwv.symm)
      · rw [huv] at hu ⊢
        simp only [update_self] at hu
        simp only [update_of_ne hwv] at hw
        have := hnot w l hw
        have := Option.some.inj hu
        omega
    · simp only [update_of_ne huv] at hu
      by_cases hwv : w = v
      · rw [hwv] at hw ⊢
        simp only [update_self] at hw
        have := hnot u m hu
        have := Option.some.inj hw
        omega
      · simp only [update_of_ne hwv] at hw
        exact h.apart u m w l hu hw

/-- The large half. -/
theorem mallocLarge_spec (env : HeapEnv) (hr : Running L s t) (h : HeapOk s H) {size : Nat} (hs : 1024 < size) :
    runs (fun x => mallocPage .user (largePages size) s = .error x) (mallocLarge .user size)
      (Malloced L env H t size s) s := by
  have hn : 0 < largePages size ∧ largePages size < 4294967296 := by
    unfold largePages
    omega
  have hpages : pagesFor size = largePages size := if_pos hs
  have hus : usable size = 4096 * largePages size - arenaSize := if_pos hs
  unfold mallocLarge
  generalize hln : largePages size = n at hn hpages hus
  rcases mallocPage_cases hr n with ⟨x, he⟩ | he | ⟨v, s₁, he, hs₁, hg⟩
  · unfold runs
    rw [bind_error he]
    exact he
  · rw [runs_bind_ok he, runs_pure]
    exact ⟨fun _ => ⟨rfl, .inr (.inr (hpages ▸ he))⟩, fun b hb => by cases hb⟩
  · have h₁ := Effect.running hr hs₁ hg.toEffect
    have hsame := hg.samePages hr hs₁
    have hc₁ : s₁.cur = s.cur := hg.rest.cur
    have hok₁ := h.samePages hr hc₁ hsame fun _ _ => trivial
    have hown : ∀ u, v ≤ u → u < v + n → u < kernelBase ∧ s₁.own u := fun u h1 h2 => hg.own hr hs₁ h1 h2
    have hnew : ∀ u, v ≤ u → u < v + n → ¬ H.used u := fun u h1 h2 => hg.not_used hr h h1 h2
    have hat : ∀ {r : Vm} o, r.own v → o < 4096 → r.own ((4096 * v + o) / 4096) := fun o ho h => by
      rwa [show (4096 * v + o) / 4096 = v by omega]
    have hown₁ := (hown v (le_refl v) (by omega)).2
    obtain ⟨s₂, hrun₂, hp₂, hz₂⟩ := zeroPages_spec n v s₁ h₁ fun u h1 h2 => (hown u h1 h2).2
    have h₂ := hp₂.running h₁
    have hown₂ := (hp₂.own h₁).2 hown₁
    obtain ⟨s₃, hrun₃, hp₃, hw₃⟩ := storeWord_spec (a := 4096 * v) h₂ (by rwa [show 4096 * v / 4096 = v by omega])
      (by omega) (w := 0) (by omega)
    have hq₃ := hp₂.trans h₁ (hp₃.mono (B := fun b => v ≤ b / 4096 ∧ b / 4096 < v + n) fun a ha => by omega)
    have h₃ := hq₃.running h₁
    have hown₃ := (hq₃.own h₁).2 hown₁
    obtain ⟨s₄, hrun₄, hp₄, hw₄⟩ := storeWord_spec (a := 4096 * v + 4) h₃ (hat 4 hown₃ (by omega)) (by omega) hn.2
    have hq₄ := hq₃.trans h₁ (hp₄.mono (B := fun b => v ≤ b / 4096 ∧ b / 4096 < v + n) fun a ha => by omega)
    have h₄ := hq₄.running h₁
    have hown₄ := (hq₄.own h₁).2 hown₁
    obtain ⟨s', hrun', hp', hb'⟩ := storeByte_spec (a := 4096 * v + 8) h₄ (hat 8 hown₄ (by omega)) 1
    have hq := hq₄.trans h₁ (hp'.mono (B := fun b => v ≤ b / 4096 ∧ b / 4096 < v + n) fun a ha => by omega)
    have hok' : HeapOk s' H := hok₁.pokes h₁ hq fun a ha hc => by
      rcases hok₁.books_page ha with hu | hu
      · have := (hown (a / 4096) hc.1 hc.2).1
        have := h₁.kernelBase_le
        omega
      · exact hnew _ hc.1 hc.2 hu
    have harena : LargeArena s' v n := by
      refine ⟨hn.1, fun u h1 h2 => ⟨(hown u h1 h2).1, by rw [hq.walk h₁]; exact (hown u h1 h2).2.2⟩, ?_, ?_, hb'⟩
      · rw [hp'.word (by rwa [show 4096 * v / 4096 = v by omega]) (by omega) fun i hi hc => by omega,
          hp₄.word (by rwa [show 4096 * v / 4096 = v by omega]) (by omega) fun i hi hc => by omega]
        exact hw₃
      · rw [hp'.word (hat 4 hown₄ (by omega)) (by omega) fun i hi hc => by omega]
        exact hw₄
    rw [runs_bind_ok he]
    simp only
    rw [runs_bind_ok hrun₂, runs_bind_ok hrun₃, runs_bind_ok hrun₄, runs_bind_ok hrun', runs_pure]
    refine ⟨fun hc => (Option.some_ne_none _ hc).elim, fun b hb => ⟨by omega, H.addLarge v n, ?_⟩⟩
    cases hb
    have hnot : ∀ u, v ≤ u → u < v + n → ¬ s.own u := fun u h1 h2 => hg.not_own hr hs₁ h1 h2
    refine ⟨?_, hok'.addLarge harena hnew, hq.running h₁, (hg.within hr _).trans ?_, fun u hu hnu => ?_, ?_, fun a h1 h2 => ?_⟩
    · have hh : H.Handed size _ _ := .large v hs (by rw [hln]; exact hnew)
      rwa [hln] at hh
    · refine (hq.within h₁ (U := fun u => v ≤ u ∧ u < v + n) fun a ha => .inr ⟨(hown _ ha.1 ha.2).1, ha⟩).narrow
        fun u hu _ p f hpc hf' => ?_
      rw [hc₁] at hpc ⊢
      exact hg.unshared hpc hu.1 hu.2 hf'
    · rcases hu with hu | ⟨w, m, hw, h1, h2⟩
      · exact absurd (.inl hu) hnu
      · unfold Heap.addLarge at hw
        by_cases hwv : w = v
        · subst hwv
          simp only [update_self] at hw
          have := Option.some.inj hw
          exact hnot u h1 (by omega)
        · simp only [update_of_ne hwv] at hw
          exact absurd (.inr ⟨w, m, hw, h1, h2⟩) hnu
    · refine (hsame.leaves.trans (hq.leaves h₁)).mono fun a hown' ha => ?_
      rcases ha with ha | ha
      · exact absurd trivial ha
      · exact absurd hown' (hnot _ ha.1 ha.2)
    · rw [hus] at h2
      unfold arenaSize at h1 h2
      have ha : s₁.own (a / 4096) := (hown (a / 4096) (by omega) (by omega)).2
      rw [hp'.byte a ((hq₄.own h₁).2 ha) (by omega), hp₄.byte a ((hq₃.own h₁).2 ha) (by omega),
        hp₃.byte a ((hp₂.own h₁).2 ha) (by omega)]
      exact hz₂ a (by omega) (by omega)

/-- `sys_malloc` of a process. -/
theorem sysMalloc_spec (env : HeapEnv) (hr : Running L s t) (h : HeapOk s H) (size : Nat) :
    runs (fun x => 0 < size ∧ size < env.poolSize .user ∧ mallocPage .user (pagesFor size) s = .error x)
      (sysMalloc env size) (Malloced L env H t size s) s := by
  have hpg : t.pgdir ≠ 0 := TaskStruct.live_pgdir hr.live
  unfold sysMalloc
  rw [runs_bind_ok (runningThread_run rfl hr.task), runs_read_bind, if_neg hpg, if_neg hpg]
  by_cases hsz : size = 0 ∨ env.poolSize .user ≤ size
  · rw [if_pos hsz, runs_pure]
    refine ⟨fun _ => ⟨rfl, ?_⟩, fun b hb => by cases hb⟩
    rcases hsz with h0 | hp
    · exact .inl h0
    · exact .inr (.inl hp)
  · rw [if_neg hsz]
    by_cases hl : 1024 < size
    · rw [if_pos hl]
      refine runs_mono (mallocLarge_spec env hr h hl) (fun x hx => ⟨by omega, by omega, ?_⟩) fun _ _ hq => hq
      unfold pagesFor
      rwa [if_pos hl]
    · rw [if_neg hl]
      refine runs_mono (mallocSmall_spec env hr h (by omega) (by omega)) (fun x hx => ⟨by omega, by omega, ?_⟩)
        fun _ _ hq => hq
      unfold pagesFor
      rwa [if_neg hl]

/-! ## What is handed out -/

/-- What is handed out was no block before. -/
theorem Heap.Handed.new {size m : Nat} {H' : Heap} (hh : H.Handed size b H') (h : HeapOk s H) : ¬ H.Block b m := by
  intro hb
  have hused : H.used (b / 4096) := h.block_page hb (le_refl b) (by have := h.block_pos hb; omega)
  cases hh with
  | block k b rest hs hk hf =>
    obtain ⟨harena, -⟩ := h.block k (hk ▸ fit_lt hs) b (by rw [hf]; exact List.mem_cons_self)
    cases hb with
    | small v j i hv hi hnot =>
      rw [blockAt_div hi, hv] at harena
      obtain rfl := Option.some.inj harena
      exact hnot (by rw [hf]; exact List.mem_cons_self)
    | large v n hv =>
      have hpos := (h.big v n hv).pos
      unfold arenaSize at harena
      exact h.mixed _ _ v n harena hv ⟨by omega, by omega⟩
  | arena k v hs hk hf hnew =>
    have hp := blocksPerArena_pos (hk ▸ fit_lt hs)
    rw [blockAt_div hp] at hused
    exact hnew hused
  | large v hs hnew =>
    unfold arenaSize at hused
    rw [show (4096 * v + 12) / 4096 = v by omega] at hused
    exact hnew v (le_refl v) (by unfold largePages; omega) hused

/-- The blocks after `sys_malloc`: one more. -/
theorem Heap.Handed.blocks {size c m : Nat} {H' : Heap} (hh : H.Handed size b H') (h : HeapOk s H) :
    H'.Block c m ↔ c = b ∧ m = usable size ∨ H.Block c m := by
  cases hh with
  | block k b rest hs hk hf =>
    have hus : usable size = blockSize k := by rw [← hk]; exact if_neg (by omega)
    rw [hus, takes_block h (hk ▸ fit_lt hs) hf]
  | arena k v hs hk hf hnew =>
    have hus : usable size = blockSize k := by rw [← hk]; exact if_neg (by omega)
    rw [hus]
    exact takesArena_block (hk ▸ fit_lt hs) hf hnew
  | large v hs hnew =>
    have hnone : H.large v = Option.none := by
      by_contra hc
      refine hnew v (le_refl v) (by unfold largePages; omega) (h.used_head (.inr hc))
    rw [addsLarge_block hnone, show usable size = 4096 * largePages size - arenaSize from if_pos hs]

theorem Heap.Handed.busy {size : Nat} {H' : Heap} (hh : H.Handed size b H') (h : H.Busy) : H'.Busy := by
  cases hh with
  | block k b rest _ _ _ => exact h.take k
  | arena k v hs hk hf _ => exact h.takeArena (hk ▸ fit_lt hs) hf v
  | large v _ _ => exact fun u j hu => h u j hu

end

end Enix.Memory
