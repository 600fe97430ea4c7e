import Enix.Memory.HeapLists

/-!
# What a heap is

`Heap` is the abstract state of a process's heap: the free list of each
descriptor, the small arenas with their descriptors, the large ones with their
pages. A block of a small arena that is on no list is live. `HeapOk s H` says
that the memory of the running process holds `H`.

* `HeapOk.pokes`: stores elsewhere leave the heap alone.
* `blockAt_apart`, `blockAt_page`: where blocks are.
-/
set_option autoImplicit false

namespace Enix.Memory
open Enix.Core Enix.Kernel Function

/-- `block_size` of descriptor `k`. -/
def blockSize (k : Nat) : Nat := 16 * 2 ^ k

/-- `blocks_per_arena` of descriptor `k`. -/
def blocksPerArena (k : Nat) : Nat := (4096 - arenaSize) / blockSize k

/-- Block `i` of an arena of descriptor `k` in page `v`. -/
def blockAt (v k i : Nat) : Nat := 4096 * v + arenaSize + i * blockSize k

/-- Descriptor `k` of the running process. -/
def Vm.desc (s : Vm) (k : Nat) : Nat := 4096 * s.cur + uBlockDesc + descSize * k

structure Heap where
  /-- by descriptor: the blocks on its list -/
  free : Nat → List Nat
  /-- by page: the descriptor of the small arena -/
  arena : Nat → Option Nat
  /-- by first page: the number of pages of the large arena -/
  large : Nat → Option Nat

namespace Heap

/-- Page `v` is one of the heap's. -/
def used (H : Heap) (v : Nat) : Prop := H.arena v ≠ none ∨ ∃ u n, H.large u = some n ∧ u ≤ v ∧ v < u + n

/-- The blocks of page `v` on the list of `k`. -/
def freeCnt (H : Heap) (v k : Nat) : Nat := ((H.free k).filter fun b => b / 4096 = v).length

/-- The bytes that the heap keeps its books in: descriptors, arenas and nodes. -/
def books (H : Heap) (s : Vm) (a : Nat) : Prop :=
  (∃ k, k < descCnt ∧ s.desc k ≤ a ∧ a < s.desc k + descSize) ∨
    (∃ v, (H.arena v ≠ none ∨ H.large v ≠ none) ∧ 4096 * v ≤ a ∧ a < 4096 * v + arenaSize) ∨
    ∃ k b, k < descCnt ∧ b ∈ H.free k ∧ b ≤ a ∧ a < b + 8

/-- Without a block. -/
def none : Heap := ⟨fun _ => [], fun _ => Option.none, fun _ => Option.none⟩

end Heap

/-- The arena in page `v` is one of descriptor `k`. -/
structure SmallArena (s : Vm) (H : Heap) (v k : Nat) : Prop where
  kind : k < descCnt
  user : v < kernelBase
  page : s.walk v ≠ none
  desc : s.wordAt (4096 * v) = s.desc k
  freeCnt : s.wordAt (4096 * v + 4) = H.freeCnt v k
  large : s.byteAt (4096 * v + 8) = 0

/-- The arena in page `v` is a large one of `n` pages. -/
structure LargeArena (s : Vm) (v n : Nat) : Prop where
  pos : 0 < n
  pages : ∀ u, v ≤ u → u < v + n → u < kernelBase ∧ s.walk u ≠ none
  desc : s.wordAt (4096 * v) = 0
  freeCnt : s.wordAt (4096 * v + 4) = n
  large : s.byteAt (4096 * v + 8) = 1

structure HeapOk (s : Vm) (H : Heap) : Prop where
  size : ∀ k, k < descCnt → s.wordAt (s.desc k) = blockSize k
  count : ∀ k, k < descCnt → s.wordAt (s.desc k + 4) = blocksPerArena k
  list : ∀ k, k < descCnt → ListAt s (s.desc k + 8) (H.free k)
  block : ∀ k, k < descCnt → ∀ b ∈ H.free k, H.arena (b / 4096) = some k ∧
    ∃ i, i < blocksPerArena k ∧ b = blockAt (b / 4096) k i
  small : ∀ v k, H.arena v = some k → SmallArena s H v k
  big : ∀ v n, H.large v = some n → LargeArena s v n
  mixed : ∀ v k u n, H.arena v = some k → H.large u = some n → ¬ (u ≤ v ∧ v < u + n)
  apart : ∀ v n u m, H.large v = some n → H.large u = some m → v = u ∨ v + n ≤ u ∨ u + m ≤ v

/-- Every arena has a live block. -/
def Heap.Busy (H : Heap) : Prop := ∀ v k, H.arena v = some k → H.freeCnt v k < blocksPerArena k

section
variable {L : Spaces} {s s₁ s' : Vm} {t : TaskStruct} {H : Heap} {A : Nat → Prop} {a b i j k v u n : Nat} {k' : Nat}

/-! ## Blocks -/

theorem blockSize_pos (k : Nat) : 0 < blockSize k := Nat.mul_pos (by decide) (Nat.two_pow_pos k)

theorem blockSize_ge (k : Nat) : 16 ≤ blockSize k := Nat.le_mul_of_pos_right 16 (Nat.two_pow_pos k)

theorem blocksPerArena_mul (k : Nat) : blocksPerArena k * blockSize k ≤ 4084 := Nat.div_mul_le_self (4096 - arenaSize) _

theorem blocksPerArena_pos (hk : k < descCnt) : 0 < blocksPerArena k := by
  have hpow : 2 ^ k ≤ 2 ^ 6 := Nat.pow_le_pow_right (by decide) (Nat.le_of_lt_succ hk)
  refine Nat.div_pos ?_ (blockSize_pos k)
  unfold blockSize arenaSize
  omega

/-- A block is in the page of its arena. -/
theorem blockAt_page (hi : i < blocksPerArena k) : 4096 * v + 12 ≤ blockAt v k i ∧
    blockAt v k i + blockSize k ≤ 4096 * v + 4096 := by
  have hle : (i + 1) * blockSize k ≤ blocksPerArena k * blockSize k := Nat.mul_le_mul_right _ hi
  have hmax := blocksPerArena_mul k
  rw [Nat.add_mul, Nat.one_mul] at hle
  unfold blockAt arenaSize
  omega

theorem blockAt_div (hi : i < blocksPerArena k) : blockAt v k i / 4096 = v := by
  have hpage := blockAt_page (v := v) hi
  have := blockSize_pos k
  omega

theorem blockAt_mod (v k i : Nat) : blockAt v k i % 8 = 4 := by
  have h8 : i * blockSize k = 8 * (i * (2 * 2 ^ k)) := by
    unfold blockSize
    rw [show 16 * 2 ^ k = 8 * (2 * 2 ^ k) by omega, Nat.mul_left_comm]
  unfold blockAt arenaSize
  rw [h8]
  omega

theorem blockAt_inj (h : blockAt v k i = blockAt v k j) : i = j := by
  unfold blockAt at h
  exact Nat.eq_of_mul_eq_mul_right (blockSize_pos k) (Nat.add_left_cancel h)

/-- Two blocks are apart, if there is one arena at most in a page. -/
theorem blockAt_apart (hi : i < blocksPerArena k) (hj : j < blocksPerArena k') (hvk : v = u → k = k')
    (hne : blockAt v k i ≠ blockAt u k' j) :
    blockAt v k i + blockSize k ≤ blockAt u k' j ∨ blockAt u k' j + blockSize k' ≤ blockAt v k i := by
  by_cases hvu : v = u
  · obtain rfl := hvk hvu
    subst hvu
    have hij : i ≠ j := fun hc => hne (by rw [hc])
    unfold blockAt
    rcases Nat.lt_or_gt_of_ne hij with hlt | hlt
    · have hle : (i + 1) * blockSize k ≤ j * blockSize k := Nat.mul_le_mul_right _ hlt
      rw [Nat.add_mul, Nat.one_mul] at hle
      omega
    · have hle : (j + 1) * blockSize k ≤ i * blockSize k := Nat.mul_le_mul_right _ hlt
      rw [Nat.add_mul, Nat.one_mul] at hle
      omega
  · have hp := blockAt_page (v := v) hi
    have hq := blockAt_page (v := u) hj
    omega

/-! ## Descriptors -/

/-- The descriptors are in the page of the `task_struct`. -/
theorem desc_page (hk : k < descCnt) : 4096 * s.cur + 100 ≤ s.desc k ∧ s.desc k + 24 ≤ 4096 * s.cur + 268 := by
  unfold descCnt at hk
  unfold Vm.desc uBlockDesc descSize
  omega

theorem desc_mod (s : Vm) (k : Nat) : s.desc k % 8 = 4 := by
  unfold Vm.desc uBlockDesc descSize
  omega

theorem Running.desc_lt (h : Running L s t) (hk : k < descCnt) : s.desc k + 24 < 4294967296 := by
  have := (desc_page (s := s) hk).2
  have := h.page
  omega

theorem Running.own_desc (h : Running L s t) (hk : k < descCnt) (ha : s.desc k ≤ a) (hb : a < s.desc k + 24) :
    s.own (a / 4096) := by
  have hd := desc_page (s := s) hk
  rw [show a / 4096 = s.cur by omega]
  exact h.own_cur

theorem Pokes.desc (h : Pokes L s s' A) (k : Nat) : s'.desc k = s.desc k := by
  unfold Vm.desc
  rw [h.toStored.cur]

/-! ## Pages -/

theorem SmallArena.own (h : SmallArena s H v k) : s.own v := ⟨.inl h.user, h.page⟩

theorem LargeArena.own (h : LargeArena s v n) (h1 : v ≤ u) (h2 : u < v + n) : s.own u :=
  ⟨.inl (h.pages u h1 h2).1, (h.pages u h1 h2).2⟩

/-- The heap is in pages of the user's half. -/
theorem HeapOk.user (h : HeapOk s H) (hv : H.used v) : v < kernelBase ∧ s.walk v ≠ none := by
  rcases hv with hv | ⟨u, n, hu, h1, h2⟩
  · obtain ⟨k, hk⟩ := Option.ne_none_iff_exists'.1 hv
    exact ⟨(h.small v k hk).user, (h.small v k hk).page⟩
  · exact (h.big u n hu).pages v h1 h2

theorem HeapOk.used_free (h : HeapOk s H) (hk : k < descCnt) (hb : b ∈ H.free k) : H.used (b / 4096) := by
  refine .inl ?_
  rw [(h.block k hk b hb).1]
  simp

/-- A page with the header of an arena is one of the heap's. -/
theorem HeapOk.used_head (h : HeapOk s H) (hv : H.arena v ≠ none ∨ H.large v ≠ none) : H.used v := by
  rcases hv with hv | hv
  · exact .inl hv
  · obtain ⟨n, hn⟩ := Option.ne_none_iff_exists'.1 hv
    have := (h.big v n hn).pos
    exact .inr ⟨v, n, hn, le_refl v, by omega⟩

/-- The books are in the page of the `task_struct` and in pages of the heap. -/
theorem HeapOk.books_page (h : HeapOk s H) (ha : H.books s a) : a / 4096 = s.cur ∨ H.used (a / 4096) := by
  rcases ha with ⟨k, hk, h1, h2⟩ | ⟨v, hv, h1, h2⟩ | ⟨k, b, hk, hb, h1, h2⟩
  · have hd := desc_page (s := s) hk
    unfold descSize at h2
    exact .inl (by omega)
  · unfold arenaSize at h2
    rw [show a / 4096 = v by omega]
    exact .inr (h.used_head hv)
  · obtain ⟨-, i, hi, he⟩ := h.block k hk b hb
    have hp := blockAt_page (v := b / 4096) hi
    have := blockSize_ge k
    rw [show a / 4096 = b / 4096 by omega]
    exact .inr (h.used_free hk hb)

/-! ## What the heap depends on -/

theorem SmallArena.congr (h : SmallArena s H v k) (hd : s'.desc k = s.desc k) (hw : s'.walk v ≠ none)
    (hb : ∀ a, 4096 * v ≤ a → a < 4096 * v + 12 → s'.byteAt a = s.byteAt a) : SmallArena s' H v k where
  kind := h.kind
  user := h.user
  page := hw
  desc := by
    rw [wordAt_congr fun i hi => hb _ (by omega) (by omega), hd]
    exact h.desc
  freeCnt := by
    rw [wordAt_congr fun i hi => hb _ (by omega) (by omega)]
    exact h.freeCnt
  large := by
    rw [hb _ (by omega) (by omega)]
    exact h.large

theorem LargeArena.congr (h : LargeArena s v n) (hw : ∀ u, v ≤ u → u < v + n → s'.walk u ≠ none)
    (hb : ∀ a, 4096 * v ≤ a → a < 4096 * v + 12 → s'.byteAt a = s.byteAt a) : LargeArena s' v n where
  pos := h.pos
  pages u h1 h2 := ⟨(h.pages u h1 h2).1, hw u h1 h2⟩
  desc := by
    rw [wordAt_congr fun i hi => hb _ (by omega) (by omega)]
    exact h.desc
  freeCnt := by
    rw [wordAt_congr fun i hi => hb _ (by omega) (by omega)]
    exact h.freeCnt
  large := by
    rw [hb _ (by omega) (by omega)]
    exact h.large

/-- The bytes of a list's nodes are books. -/
theorem books_nodes (hk : k < descCnt) (hn : n ∈ listNodes (s.desc k + 8) (H.free k)) (h1 : n ≤ a) (h2 : a < n + 8) :
    H.books s a := by
  unfold listNodes at hn
  simp only [List.mem_cons, List.mem_append, List.not_mem_nil, or_false] at hn
  rcases hn with rfl | hn | rfl
  · exact .inl ⟨k, hk, by omega, by unfold descSize; omega⟩
  · exact .inr (.inr ⟨k, n, hk, hn, h1, h2⟩)
  · exact .inl ⟨k, hk, by omega, by unfold descSize; omega⟩

/-- A heap is the same in a state with the same books. -/
theorem HeapOk.congr (h : HeapOk s H) (hc : s'.cur = s.cur) (ho : ∀ v, v = s.cur ∨ H.used v → s'.own v)
    (hb : ∀ a, H.books s a → s'.byteAt a = s.byteAt a) : HeapOk s' H := by
  have hd : ∀ k, s'.desc k = s.desc k := fun k => by
    unfold Vm.desc
    rw [hc]
  have hdesc : ∀ k, k < descCnt → ∀ a, s.desc k ≤ a → a < s.desc k + 24 → s'.byteAt a = s.byteAt a :=
    fun k hk a h1 h2 => hb a (.inl ⟨k, hk, h1, h2⟩)
  refine ⟨fun k hk => ?_, fun k hk => ?_, fun k hk => ?_, h.block, fun v k hv => ?_, fun v n hv => ?_, h.mixed, h.apart⟩
  · rw [hd, wordAt_congr fun i hi => hdesc k hk _ (by omega) (by omega)]
    exact h.size k hk
  · rw [hd, wordAt_congr fun i hi => hdesc k hk _ (by omega) (by omega)]
    exact h.count k hk
  · rw [hd]
    refine (h.list k hk).congr (fun n hn => ho _ ?_) fun n hn a h1 h2 => hb a (books_nodes hk hn h1 h2)
    exact h.books_page (books_nodes hk hn (le_refl n) (by omega))
  · have hne : H.arena v ≠ none := by rw [hv]; simp
    exact (h.small v k hv).congr (hd k) (ho v (.inr (.inl hne))).2 fun a h1 h2 => hb a (.inr (.inl ⟨v, .inl hne, h1, h2⟩))
  · have hne : H.large v ≠ none := by rw [hv]; simp
    exact (h.big v n hv).congr (fun u h1 h2 => (ho u (.inr (.inr ⟨v, n, hv, h1, h2⟩))).2)
      fun a h1 h2 => hb a (.inr (.inl ⟨v, .inr hne, h1, h2⟩))

theorem HeapOk.own (h : HeapOk s H) (hr : Running L s t) (hv : v = s.cur ∨ H.used v) : s.own v := by
  rcases hv with rfl | hv
  · exact hr.own_cur
  · exact ⟨.inl (h.user hv).1, (h.user hv).2⟩

/-- Stores that leave the books alone. -/
theorem HeapOk.pokes (h : HeapOk s H) (hr : Running L s t) (hp : Pokes L s s' A) (hA : ∀ a, H.books s a → ¬ A a) :
    HeapOk s' H :=
  h.congr hp.toStored.cur (fun _ hv => (hp.own hr).2 (h.own hr hv)) fun a ha =>
    hp.byte a (h.own hr (h.books_page ha)) (hA a ha)

/-! ## Changes of one list and one arena -/

theorem mem_listNodes {l : Nat} {xs : List Nat} : n ∈ listNodes l xs ↔ n = l ∨ n ∈ xs ∨ n = l + 8 := by
  unfold listNodes
  simp only [List.mem_cons, List.mem_append, List.not_mem_nil, or_false]

/-- The lists of two descriptors have no node in common. -/
theorem HeapOk.lists_apart (h : HeapOk s H) (hr : Running L s t) (hk : k < descCnt) (hj : j < descCnt) (hne : j ≠ k)
    (hn : n ∈ listNodes (s.desc k + 8) (H.free k)) : n ∉ listNodes (s.desc j + 8) (H.free j) := by
  have hpage : ∀ i, i < descCnt → ∀ b ∈ H.free i, b / 4096 < kernelBase := fun i hi b hb =>
    (h.user (h.used_free hi hb)).1
  have hcur := hr.kernelBase_le
  have hdk := desc_page (s := s) hk
  have hdj := desc_page (s := s) hj
  have hkj : s.desc k ≠ s.desc j ∧ s.desc k + 8 ≠ s.desc j ∧ s.desc j + 8 ≠ s.desc k := by
    unfold Vm.desc descSize
    omega
  rw [mem_listNodes] at hn ⊢
  rintro hn'
  rcases hn with rfl | hn | rfl
  · rcases hn' with he | hn' | he
    · omega
    · have := hpage j hj _ hn'
      omega
    · omega
  · have hu := hpage k hk n hn
    rcases hn' with rfl | hn' | rfl
    · omega
    · have ha := (h.block k hk n hn).1
      rw [(h.block j hj n hn').1] at ha
      exact hne (Option.some.inj ha)
    · omega
  · rcases hn' with he | hn' | he
    · omega
    · have := hpage j hj _ hn'
      omega
    · omega

/-- The list of one descriptor and the arena in one page change. -/
theorem HeapOk.edit {H' : Heap} (h : HeapOk s H) (hr : Running L s t) (hp : Pokes L s s' A) (hk : k < descCnt)
    (hA : ∀ a, A a → onNodes (· ∈ listNodes (s.desc k + 8) (H.free k)) a ∨ a / 4096 = v) (hvu : v < kernelBase)
    (hv : H.arena v = none ∨ H.arena v = some k) (hvl : ∀ u n, H.large u = some n → ¬ (u ≤ v ∧ v < u + n))
    (hfree : ∀ j, j ≠ k → H'.free j = H.free j) (harena : ∀ u, u ≠ v → H'.arena u = H.arena u)
    (hlarge : H'.large = H.large) (hcnt : ∀ u, u ≠ v → H'.freeCnt u k = H.freeCnt u k)
    (hlist : ListAt s' (s.desc k + 8) (H'.free k))
    (hblock : ∀ b ∈ H'.free k, H'.arena (b / 4096) = some k ∧ ∃ i, i < blocksPerArena k ∧ b = blockAt (b / 4096) k i)
    (hsmall : ∀ j, H'.arena v = some j → SmallArena s' H' v j) : HeapOk s' H' := by
  have hcur := hr.kernelBase_le
  have hkl := h.list k hk
  have hnode : ∀ a, A a → a / 4096 ≠ v → ∃ n, n ∈ listNodes (s.desc k + 8) (H.free k) ∧ n ≤ a ∧ a < n + 8 := fun a ha hne =>
    (hA a ha).resolve_right hne
  -- the words of descriptor `j` before its list
  have hdesc : ∀ j, j < descCnt → ∀ a, s.desc j ≤ a → a < s.desc j + 8 → s'.byteAt a = s.byteAt a := by
    intro j hj a h1 h2
    refine hp.byte a (hr.own_desc hj h1 (by omega)) fun ha => ?_
    have hd := desc_page (s := s) hj
    obtain ⟨n, hn, h3, h4⟩ := hnode a ha (by omega)
    rcases mem_listNodes.1 hn with rfl | hn | rfl
    · unfold Vm.desc descSize at h1 h2 h3 h4
      omega
    · have hu := (h.user (h.used_free hk hn)).1
      have := (hkl.node n (mem_listNodes.2 (.inr (.inl hn)))).fits
      omega
    · unfold Vm.desc descSize at h1 h2 h3 h4
      omega
  -- the arenas in other pages
  have hhead : ∀ u, u ≠ v → s.own u → u < kernelBase → ∀ a, 4096 * u ≤ a → a < 4096 * u + 12 → s'.byteAt a = s.byteAt a := by
    intro u hne hu hlt a h1 h2
    refine hp.byte a (by rwa [show a / 4096 = u by omega]) fun ha => ?_
    obtain ⟨n, hn, h3, h4⟩ := hnode a ha (by omega)
    have hd := desc_page (s := s) hk
    rcases mem_listNodes.1 hn with rfl | hn' | rfl
    · omega
    · obtain ⟨-, i, hi, he⟩ := h.block k hk n hn'
      have hpage := blockAt_page (v := n / 4096) hi
      have := (hkl.node n hn).fits
      omega
    · omega
  refine ⟨fun j hj => ?_, fun j hj => ?_, fun j hj => ?_, fun j hj => ?_, fun u j hu => ?_, fun u n hu => ?_,
    fun u j w n hu hw => ?_, fun u n w m hu hw => ?_⟩
  · rw [hp.desc, wordAt_congr fun i hi => hdesc j hj _ (by omega) (by omega)]
    exact h.size j hj
  · rw [hp.desc, wordAt_congr fun i hi => hdesc j hj _ (by omega) (by omega)]
    exact h.count j hj
  · rw [hp.desc]
    by_cases hjk : j = k
    · rw [hjk]
      exact hlist
    · rw [hfree j hjk]
      have hjl := h.list j hj
      refine hjl.pokes hr hp fun n hn a h1 h2 ha => ?_
      have hnv : a / 4096 ≠ v := by
        have hf := (hjl.node n hn).fits
        have hd := desc_page (s := s) hj
        rcases mem_listNodes.1 hn with rfl | hn' | rfl
        · omega
        · intro hc
          have hb := (h.block j hj n hn').1
          rw [show n / 4096 = v by omega] at hb
          rcases hv with hv | hv
          · rw [hb] at hv
            cases hv
          · rw [hb] at hv
            exact hjk (Option.some.inj hv)
        · omega
      obtain ⟨m, hm, h3, h4⟩ := hnode a ha hnv
      exact not_onNodes (hjl.node n hn).mod (fun m hm => (hkl.node m hm).mod)
        (fun hc => h.lists_apart hr hk hj hjk hc hn) h1 h2 ⟨m, hm, h3, h4⟩
  · by_cases hjk : j = k
    · rw [hjk]
      exact hblock
    · rw [hfree j hjk]
      intro b hb
      obtain ⟨ha, hi⟩ := h.block j hj b hb
      refine ⟨?_, hi⟩
      rw [harena _ fun hc => ?_]
      · exact ha
      · rw [hc] at ha
        rcases hv with hv | hv
        · rw [ha] at hv
          cases hv
        · rw [ha] at hv
          exact hjk (Option.some.inj hv)
  · by_cases huv : u = v
    · rw [huv] at hu ⊢
      exact hsmall j hu
    · rw [harena u huv] at hu
      have hs := h.small u j hu
      have hcnt' : H'.freeCnt u j = H.freeCnt u j := by
        by_cases hjk : j = k
        · rw [hjk]
          exact hcnt u huv
        · unfold Heap.freeCnt
          rw [hfree j hjk]
      have hs' := hs.congr (hp.desc j) (by rw [hp.walk hr]; exact hs.page) (hhead u huv hs.own hs.user)
      exact ⟨hs'.kind, hs'.user, hs'.page, hs'.desc, by rw [hcnt']; exact hs'.freeCnt, hs'.large⟩
  · rw [hlarge] at hu
    have hb := h.big u n hu
    have hne : u ≠ v := fun hc => hvl u n hu ⟨by omega, by have := hb.pos; omega⟩
    have hpos := hb.pos
    exact hb.congr (fun w h1 h2 => by rw [hp.walk hr]; exact (hb.pages w h1 h2).2)
      (hhead u hne (hb.own (le_refl u) (by omega)) (hb.pages u (le_refl u) (by omega)).1)
  · rw [hlarge] at hw
    by_cases huv : u = v
    · rw [huv]
      exact hvl w n hw
    · rw [harena u huv] at hu
      exact h.mixed u j w n hu hw
  · rw [hlarge] at hu hw
    exact h.apart u n w m hu hw

/-! ## Pages that are mapped and given back -/

/-- The pages in `P` that the process has stay as they are. -/
def SamePages (s s' : Vm) (P : Nat → Prop) : Prop :=
  ∀ v, P v → s.own v → s'.own v ∧ ∀ a, a / 4096 = v → s'.byteAt a = s.byteAt a

theorem HeapOk.samePages (h : HeapOk s H) (hr : Running L s t) (hc : s'.cur = s.cur) {P : Nat → Prop}
    (hs : SamePages s s' P) (hP : ∀ v, v = s.cur ∨ H.used v → P v) : HeapOk s' H :=
  h.congr hc (fun v hv => (hs v (hP v hv) (h.own hr hv)).1) fun a ha =>
    (hs _ (hP _ (h.books_page ha)) (h.own hr (h.books_page ha))).2 a rfl

/-- Page tables change, but not the entries of the pages in `P`, and not what is
in the frames of the process. -/
theorem Running.samePages (h : Running L s t) (h' : Running L s' t) (hc : s'.cur = s.cur) {P : Nat → Prop}
    (he : ∀ v, P v → s.own v → v < kernelBase → entries L s' (.pte s.cur v) = entries L s (.pte s.cur v))
    (hk : s'.kernelPte = s.kernelPte)
    (hph : ∀ g r, refs L s r = some g → Plain L s g → (∀ k u, s.part s.cur (.map k) = some u → r ≠ .kernel u) →
      s'.phys g = s.phys g) : SamePages s s' P := by
  intro v hP hv
  have hwalk : s'.walk v = s.walk v := by
    by_cases hlt : v < kernelBase
    · rw [walk_user h'.inUse hlt, walk_user h.inUse hlt, hc]
      unfold refs refsOf
      rw [he v hP hv hlt]
    · rw [walk_kernel (L := L) (Nat.not_lt.1 hlt), walk_kernel (L := L) (Nat.not_lt.1 hlt)]
      unfold refs refsOf entries
      rw [hk]
  refine ⟨?_, fun a ha => ?_⟩
  · unfold Vm.own
    rw [hc, hwalk]
    exact hv
  · obtain ⟨f, hf⟩ := Option.ne_none_iff_exists'.1 hv.2
    obtain ⟨hp, hm⟩ := h.plain hv hf
    unfold Vm.byteAt
    rw [ha, hwalk, hf]
    rw [h.walk] at hf
    have hfr := hph f _ hf hp fun k u hu hc => hm s.cur k u hu (hc ▸ hf)
    simp only [hfr]

theorem Effect.running (h : Running L s t) (hs : Sound L s') (hf : Effect L s s' A) : Running L s' t :=
  ⟨hs, by rw [hf.rest.tasks, hf.rest.cur]; exact h.task, h.live, by rw [hf.rest.cur]; exact h.page⟩

/-- New pages of the process. -/
theorem GotUser.samePages (h : Running L s t) (hs : Sound L s') (hg : GotUser L s s' s.cur v n) :
    SamePages s s' fun _ => True := by
  refine h.samePages (Effect.running h hs hg.toEffect) hg.rest.cur (fun u _ hu hlt => ?_) hg.kernelPte hg.phys
  refine hg.other u ?_
  by_contra hc
  have hold := hg.old u (by omega) (by omega)
  exact hu.2 (by rw [walk_user h.inUse hlt, refs_eq_none, hold])

theorem GotUser.own (h : Running L s t) (hs : Sound L s') (hg : GotUser L s s' s.cur v n) (h1 : v ≤ u) (h2 : u < v + n) :
    u < kernelBase ∧ s'.own u := by
  have hlt : u < kernelBase := by
    have := hg.last
    omega
  obtain ⟨f, hf, -⟩ := hg.new u h1 h2
  refine ⟨hlt, .inl hlt, ?_⟩
  rw [walk_user (Effect.running h hs hg.toEffect).inUse hlt, hg.rest.cur, refs_eq_some.2 ⟨_, hf, rfl⟩]
  simp

/-- New pages are not the heap's. -/
theorem GotUser.not_used (h : Running L s t) (hok : HeapOk s H) (hg : GotUser L s s' s.cur v n) (h1 : v ≤ u)
    (h2 : u < v + n) : ¬ H.used u := by
  intro hu
  obtain ⟨hlt, hw⟩ := hok.user hu
  exact hw (by rw [walk_user h.inUse hlt, refs_eq_none, hg.old u h1 h2])

/-- Pages that the process gives back. -/
theorem FreedUser.samePages (h : Running L s t) (hs : Sound L s') (hg : FreedUser L s s' s.cur v n) :
    SamePages s s' fun u => u < v ∨ v + n ≤ u :=
  h.samePages (Effect.running h hs hg.toEffect) hg.rest.cur (fun u hu _ _ => hg.other u hu) hg.kernelPte hg.phys

/-! ## Bytes that stay -/

/-- What the process has outside `A` it still has, unchanged. -/
def Leaves (s s' : Vm) (A : Nat → Prop) : Prop :=
  ∀ a, s.own (a / 4096) → ¬ A a → s'.own (a / 4096) ∧ s'.byteAt a = s.byteAt a

theorem Leaves.trans {B : Nat → Prop} (h₁ : Leaves s s₁ A) (h₂ : Leaves s₁ s' B) : Leaves s s' fun a => A a ∨ B a := by
  intro a hown hAB
  rw [not_or] at hAB
  obtain ⟨hown₁, hb₁⟩ := h₁ a hown hAB.1
  obtain ⟨hown', hb'⟩ := h₂ a hown₁ hAB.2
  exact ⟨hown', hb'.trans hb₁⟩

theorem Leaves.mono {B : Nat → Prop} (h : Leaves s s' A) (hAB : ∀ a, s.own (a / 4096) → A a → B a) : Leaves s s' B :=
  fun a hown hB => h a hown fun hA => hB (hAB a hown hA)

theorem Pokes.leaves (h : Pokes L s s' A) (hr : Running L s t) : Leaves s s' A := fun a hown hA =>
  ⟨(h.own hr).2 hown, h.byte a hown hA⟩

theorem SamePages.leaves {P : Nat → Prop} (h : SamePages s s' P) : Leaves s s' fun a => ¬ P (a / 4096) := fun a hown hP =>
  ⟨(h _ (not_not.1 hP) hown).1, (h _ (not_not.1 hP) hown).2 a rfl⟩

theorem books_cur (hc : s'.cur = s.cur) : H.books s' a ↔ H.books s a := by
  unfold Heap.books Vm.desc
  rw [hc]

end

end Enix.Memory
