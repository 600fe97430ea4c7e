import Enix.Core.Blocks
import Enix.Memory.HeapOk

/-!
# The blocks of a heap

`Heap.Block H b n`: a block of `n` bytes at `b` has been handed out and not given
back.

* `HeapOk.block_books`, `HeapOk.block_apart`: blocks are apart from each other and
  from what the heap keeps its books in.
* `Heap.Busy.block`: a page without a block is not one of the heap's.
* `takes_block`, `gives_block` and the others: what the operations on the books do
  to the blocks.
-/
set_option autoImplicit false

namespace Enix.Memory
open Enix.Core Enix.Kernel Function

namespace Heap

/-- The first block of list `k` is taken. -/
def take (H : Heap) (k : Nat) : Heap := { H with free := update H.free k (H.free k).tail }

/-- The blocks of an arena of `k` in page `v`, the first `n`. -/
def blocks (v k n : Nat) : List Nat := (List.range n).map (blockAt v k)

/-- An arena of `k` in page `v` is added, its blocks free. -/
def addArena (H : Heap) (v k : Nat) : Heap :=
  { H with free := update H.free k (blocks v k (blocksPerArena k)), arena := update H.arena v (some k) }

/-- A large arena of `n` pages is added. -/
def addLarge (H : Heap) (v n : Nat) : Heap := { H with large := update H.large v (some n) }

/-- Block `b` is put on list `k`. -/
def give (H : Heap) (k b : Nat) : Heap := { H with free := update H.free k (H.free k ++ [b]) }

/-- The arena of `k` in page `v` is gone, its blocks are on no list. -/
def dropArena (H : Heap) (v k : Nat) : Heap :=
  { H with free := update H.free k ((H.free k).filter fun b => b / 4096 ≠ v), arena := update H.arena v Option.none }

/-- The large arena at page `v` is gone. -/
def dropLarge (H : Heap) (v : Nat) : Heap := { H with large := update H.large v Option.none }

/-- The books of a heap with one more arena. -/
theorem addArena_books {H : Heap} {s : Vm} {a v k : Nat} (h : (H.addArena v k).books s a) : H.books s a ∨ a / 4096 = v := by
  rcases h with hd | ⟨u, hu, h1, h2⟩ | ⟨j, c, hj, hc, h1, h2⟩
  · exact .inl (.inl hd)
  · by_cases huv : u = v
    · unfold arenaSize at h2
      exact .inr (by omega)
    · unfold addArena at hu
      simp only [update_of_ne huv] at hu
      exact .inl (.inr (.inl ⟨u, hu, h1, h2⟩))
  · unfold addArena at hc
    by_cases hjk : j = k
    · subst hjk
      simp only [update_self] at hc
      unfold blocks at hc
      obtain ⟨i, hi, rfl⟩ := List.mem_map.1 hc
      have hp := blockAt_page (v := v) (List.mem_range.1 hi)
      have := blockSize_ge j
      exact .inr (by omega)
    · simp only [update_of_ne hjk] at hc
      exact .inl (.inr (.inr ⟨j, c, hj, hc, h1, h2⟩))

/-- A block of `n` bytes at `b` has been handed out and not given back. -/
inductive Block (H : Heap) : Nat → Nat → Prop
  | small (v k i : Nat) : H.arena v = some k → i < blocksPerArena k → blockAt v k i ∉ H.free k →
      Block H (blockAt v k i) (blockSize k)
  | large (v n : Nat) : H.large v = some n → Block H (4096 * v + arenaSize) (4096 * n - arenaSize)

end Heap

/-- The first descriptor from `i` on, of `n`, with blocks of `size` bytes. -/
def fit (size : Nat) : (i n : Nat) → Nat
  | i, 0 => i
  | i, n + 1 => if size ≤ blockSize i then i else fit size (i + 1) n

/-- The bytes of the block that `sys_malloc(size)` hands out. -/
def usable (size : Nat) : Nat :=
  if 1024 < size then 4096 * largePages size - arenaSize else blockSize (fit size 0 descCnt)

section
variable {L : Spaces} {s s' : Vm} {t : TaskStruct} {H : Heap} {a b c i j k m n u v : Nat} {rest : List Nat}

theorem mem_blocks : b ∈ Heap.blocks v k n ↔ ∃ i, i < n ∧ b = blockAt v k i := by
  unfold Heap.blocks
  simp only [List.mem_map, List.mem_range]
  constructor
  · rintro ⟨i, hi, rfl⟩
    exact ⟨i, hi, rfl⟩
  · rintro ⟨i, hi, rfl⟩
    exact ⟨i, hi, rfl⟩

theorem blocks_succ : Heap.blocks v k (i + 1) = Heap.blocks v k i ++ [blockAt v k i] := by
  unfold Heap.blocks
  rw [List.range_succ, List.map_append, List.map_singleton]

theorem blocks_nodup (v k n : Nat) : (Heap.blocks v k n).Nodup :=
  List.nodup_range.map fun _ _ he => blockAt_inj he

/-! ## Sizes -/

theorem fit_spec (size : Nat) : ∀ n i, fit size i n ≤ i + n ∧ (fit size i n < i + n → size ≤ blockSize (fit size i n)) ∧
    ∀ j, i ≤ j → j < fit size i n → blockSize j < size := by
  intro n
  induction n with
  | zero =>
    intro i
    refine ⟨le_refl i, fun hc => absurd hc (Nat.lt_irrefl i), fun j h1 h2 => ?_⟩
    exact absurd h2 (Nat.not_lt.2 h1)
  | succ n ih =>
    intro i
    unfold fit
    by_cases hs : size ≤ blockSize i
    · rw [if_pos hs]
      exact ⟨by omega, fun _ => hs, fun j h1 h2 => by omega⟩
    · rw [if_neg hs]
      obtain ⟨h1, h2, h3⟩ := ih (i + 1)
      refine ⟨by omega, fun hc => h2 (by omega), fun j h4 h5 => ?_⟩
      by_cases hji : j = i
      · rw [hji]
        omega
      · exact h3 j (by omega) h5

/-- The largest blocks have 1024 bytes. -/
theorem fit_lt {size : Nat} (hs : size ≤ 1024) : fit size 0 descCnt < descCnt := by
  obtain ⟨h1, -, h3⟩ := fit_spec size descCnt 0
  rw [Nat.zero_add] at h1
  by_contra hc
  have := h3 6 (by omega) (by unfold descCnt at h1 hc ⊢; omega)
  have : blockSize 6 = 1024 := by decide
  omega

/-- A block is as large as asked for. The sum with the header of the arena has 32 bits. -/
theorem le_usable {size : Nat} (h : size + arenaSize + 4095 < 4294967296) : size ≤ usable size := by
  unfold usable
  by_cases hs : 1024 < size
  · rw [if_pos hs]
    unfold largePages arenaSize at *
    omega
  · rw [if_neg hs]
    have hlt : fit size 0 descCnt < descCnt := fit_lt (by omega)
    exact (fit_spec size descCnt 0).2.1 (by omega)

/-! ## Where blocks are -/

theorem HeapOk.block_pos (h : HeapOk s H) (hb : H.Block b n) : 16 ≤ n := by
  cases hb with
  | small v k i _ _ _ => exact blockSize_ge k
  | large v n hv =>
    have := (h.big v n hv).pos
    unfold arenaSize
    omega

/-- The pages of a block. -/
theorem HeapOk.block_page (h : HeapOk s H) (hb : H.Block b n) (h1 : b ≤ a) (h2 : a < b + n) : H.used (a / 4096) := by
  cases hb with
  | small v k i hv hi _ =>
    have hp := blockAt_page (v := v) hi
    rw [show a / 4096 = v by omega]
    exact .inl (by rw [hv]; simp)
  | large v n hv =>
    have := (h.big v n hv).pos
    unfold arenaSize at h1 h2
    exact .inr ⟨v, n, hv, by omega, by omega⟩

theorem HeapOk.block_user (h : HeapOk s H) (hb : H.Block b n) (h1 : b ≤ a) (h2 : a < b + n) :
    a / 4096 < kernelBase ∧ s.walk (a / 4096) ≠ none := h.user (h.block_page hb h1 h2)

/-- The heap keeps its books elsewhere. -/
theorem HeapOk.block_books (h : HeapOk s H) (hr : Running L s t) (hb : H.Block b n) (h1 : b ≤ a) (h2 : a < b + n) :
    ¬ H.books s a := by
  have hlt := (h.block_user hb h1 h2).1
  have hcur := hr.kernelBase_le
  rintro (⟨j, hj, h3, h4⟩ | ⟨u, hu, h3, h4⟩ | ⟨j, c, hj, hc, h3, h4⟩)
  · have hd := desc_page (s := s) hj
    unfold descSize at h4
    omega
  · unfold arenaSize at h4
    cases hb with
    | small v k i hv hi _ =>
      have hp := blockAt_page (v := v) hi
      omega
    | large v n hv =>
      have hpos := (h.big v n hv).pos
      unfold arenaSize at h1 h2
      rcases hu with hu | hu
      · obtain ⟨k, hk⟩ := Option.ne_none_iff_exists'.1 hu
        exact h.mixed u k v n hk hv (by omega)
      · obtain ⟨m, hm⟩ := Option.ne_none_iff_exists'.1 hu
        have := h.apart v n u m hv hm
        have := (h.big u m hm).pos
        omega
  · obtain ⟨hca, l, hl, hcl⟩ := h.block j hj c hc
    have hpc := blockAt_page (v := c / 4096) hl
    rw [← hcl] at hpc
    have := blockSize_ge j
    cases hb with
    | small v k i hv hi hnot =>
      have hp := blockAt_page (v := v) hi
      obtain rfl : v = c / 4096 := by omega
      rw [hv] at hca
      obtain rfl := Option.some.inj hca
      have hne : blockAt (c / 4096) k i ≠ blockAt (c / 4096) k l := by
        rw [← hcl]
        exact fun he => hnot (by rw [he]; exact hc)
      have hap := blockAt_apart hi hl (fun _ => rfl) hne
      rw [← hcl] at hap
      omega
    | large v n hv =>
      have hpos := (h.big v n hv).pos
      unfold arenaSize at h1 h2
      exact h.mixed (c / 4096) j v n hca hv (by omega)

/-- Two blocks are the same or apart. -/
theorem HeapOk.block_apart (h : HeapOk s H) (hb : H.Block b n) (hc : H.Block c m) :
    b = c ∧ n = m ∨ Apart (b, n) (c, m) := by
  unfold Apart
  cases hb with
  | small v k i hv hi _ =>
    have hp := blockAt_page (v := v) hi
    cases hc with
    | small u j l hu hl _ =>
      have hsame : v = u → k = j := by
        rintro rfl
        rw [hv] at hu
        exact Option.some.inj hu
      by_cases he : blockAt v k i = blockAt u j l
      · have hvu : v = u := by rw [← blockAt_div (v := v) hi, he, blockAt_div hl]
        exact .inl ⟨he, by rw [hsame hvu]⟩
      · exact .inr (blockAt_apart hi hl hsame he)
    | large u m hu =>
      have hmix := h.mixed v k u m hv hu
      have := (h.big u m hu).pos
      unfold arenaSize
      omega
  | large v n hv =>
    have hpos := (h.big v n hv).pos
    cases hc with
    | small u j l hu hl _ =>
      have hp := blockAt_page (v := u) hl
      have hmix := h.mixed u j v n hu hv
      unfold arenaSize
      omega
    | large u m hu =>
      have hap := h.apart v n u m hv hu
      have := (h.big u m hu).pos
      unfold arenaSize
      by_cases hvu : v = u
      · subst hvu
        rw [hv] at hu
        exact .inl ⟨rfl, by rw [Option.some.inj hu]⟩
      · omega

/-! ## Pages without a block -/

/-- The blocks of page `v` on a list are blocks of its arena. -/
theorem HeapOk.free_blocks (h : HeapOk s H) (hk : k < descCnt) (v : Nat) :
    (H.free k).filter (fun b => b / 4096 = v) ⊆ Heap.blocks v k (blocksPerArena k) := by
  intro b hb
  rw [List.mem_filter] at hb
  obtain ⟨-, i, hi, he⟩ := h.block k hk b hb.1
  have hv : b / 4096 = v := by simpa using hb.2
  exact mem_blocks.2 ⟨i, hi, hv ▸ he⟩

theorem blocks_length (v k n : Nat) : (Heap.blocks v k n).length = n := by
  unfold Heap.blocks
  rw [List.length_map, List.length_range]

theorem freeCnt_le (h : HeapOk s H) (hk : k < descCnt) : H.freeCnt v k ≤ blocksPerArena k := by
  have hd := (h.list k hk).list.nodup_mid
  have hle := ((hd.filter _).subperm (h.free_blocks hk v)).length_le
  rwa [blocks_length] at hle

/-- An arena with as many free blocks as it has blocks. -/
theorem HeapOk.all_free (h : HeapOk s H) (hk : k < descCnt) (hfull : H.freeCnt v k = blocksPerArena k)
    (hi : i < blocksPerArena k) : blockAt v k i ∈ H.free k := by
  have hd := (h.list k hk).list.nodup_mid
  have hperm := ((hd.filter _).subperm (h.free_blocks hk v)).perm_of_length_le (by
    unfold Heap.freeCnt at hfull
    rw [blocks_length, hfull])
  have hmem := hperm.mem_iff.2 (mem_blocks.2 ⟨i, hi, rfl⟩)
  exact (List.mem_filter.1 hmem).1

/-- An arena with fewer free blocks than it has blocks has one that is not free. -/
theorem Heap.exists_block (hcnt : H.freeCnt v k < blocksPerArena k) :
    ∃ i, i < blocksPerArena k ∧ blockAt v k i ∉ H.free k := by
  by_contra hall
  have hsub : Heap.blocks v k (blocksPerArena k) ⊆ (H.free k).filter fun b => b / 4096 = v := by
    intro b hb
    obtain ⟨i, hi, rfl⟩ := mem_blocks.1 hb
    refine List.mem_filter.2 ⟨?_, by rw [blockAt_div hi]; simp⟩
    by_contra hc
    exact hall ⟨i, hi, hc⟩
  have hle := ((blocks_nodup v k _).subperm hsub).length_le
  rw [blocks_length] at hle
  unfold Heap.freeCnt at hcnt
  omega

/-- A page of the heap has a block, or a part of one. -/
theorem Heap.Busy.block (hbusy : H.Busy) (hv : H.used v) :
    ∃ b n, H.Block b n ∧ b / 4096 ≤ v ∧ v ≤ (b + n - 1) / 4096 := by
  rcases hv with hv | ⟨u, n, hu, h1, h2⟩
  · obtain ⟨k, hk⟩ := Option.ne_none_iff_exists'.1 hv
    obtain ⟨i, hi, hnot⟩ := Heap.exists_block (hbusy v k hk)
    have hp := blockAt_page (v := v) hi
    have := blockSize_pos k
    exact ⟨_, _, .small v k i hk hi hnot, by omega, by omega⟩
  · exact ⟨_, _, .large u n hu, by unfold arenaSize; omega, by unfold arenaSize; omega⟩

/-! ## Every arena keeps a block -/

theorem freeCnt_give_self (H : Heap) (hb : b / 4096 = v) : (H.give k b).freeCnt v k = H.freeCnt v k + 1 := by
  unfold Heap.freeCnt Heap.give
  simp only [update_self]
  rw [List.filter_append, List.filter_cons_of_pos (by simpa using hb)]
  simp

theorem freeCnt_give_ne (H : Heap) (hb : b / 4096 ≠ u) : (H.give k b).freeCnt u j = H.freeCnt u j := by
  unfold Heap.freeCnt Heap.give
  by_cases hjk : j = k
  · subst hjk
    simp only [update_self]
    rw [List.filter_append, List.filter_cons_of_neg (by simpa using hb)]
    simp
  · simp only [update_of_ne hjk]

theorem freeCnt_take_le (H : Heap) (k u j : Nat) : (H.take k).freeCnt u j ≤ H.freeCnt u j := by
  unfold Heap.freeCnt Heap.take
  by_cases hjk : j = k
  · subst hjk
    simp only [update_self]
    exact ((List.tail_sublist _).filter _).length_le
  · simp only [update_of_ne hjk]
    exact le_refl _

theorem freeCnt_dropArena_le (H : Heap) (v k u j : Nat) : (H.dropArena v k).freeCnt u j ≤ H.freeCnt u j := by
  unfold Heap.freeCnt Heap.dropArena
  by_cases hjk : j = k
  · subst hjk
    simp only [update_self]
    exact (List.filter_sublist.filter _).length_le
  · simp only [update_of_ne hjk]
    exact le_refl _

theorem Heap.Busy.take (h : H.Busy) (k : Nat) : (H.take k).Busy := fun u j hu =>
  lt_of_le_of_lt (freeCnt_take_le H k u j) (h u j hu)

theorem Heap.Busy.takeArena (hbusy : H.Busy) (hk : k < descCnt) (hf : H.free k = []) (v : Nat) :
    ((H.addArena v k).take k).Busy := by
  intro u j hu
  have hself : ((H.addArena v k).take k).free k = (Heap.blocks v k (blocksPerArena k)).tail := by
    unfold Heap.take Heap.addArena
    simp only [update_self]
  have hpos := blocksPerArena_pos hk
  by_cases huv : u = v
  · subst huv
    have hkj : some k = some j := by
      unfold Heap.take Heap.addArena at hu
      simpa only [update_self] using hu
    obtain rfl := Option.some.inj hkj
    have hlen : (Heap.blocks u k (blocksPerArena k)).tail.length = blocksPerArena k - 1 := by
      rw [List.length_tail, blocks_length]
    unfold Heap.freeCnt
    rw [hself]
    have hle := List.length_filter_le (fun b => decide (b / 4096 = u)) (Heap.blocks u k (blocksPerArena k)).tail
    omega
  · have hu' : H.arena u = some j := by
      unfold Heap.take Heap.addArena at hu
      simpa only [update_of_ne huv] using hu
    refine lt_of_le_of_lt (freeCnt_take_le _ k u j) ?_
    by_cases hjk : j = k
    · subst hjk
      have hnone : (H.addArena v j).freeCnt u j = 0 := by
        unfold Heap.freeCnt Heap.addArena
        simp only [update_self]
        rw [List.length_eq_zero_iff, List.filter_eq_nil_iff]
        intro b hb
        obtain ⟨i, hi, rfl⟩ := mem_blocks.1 hb
        rw [blockAt_div hi]
        simpa using Ne.symm huv
      omega
    · have hsame : (H.addArena v k).freeCnt u j = H.freeCnt u j := by
        unfold Heap.freeCnt Heap.addArena
        simp only [update_of_ne hjk]
      rw [hsame]
      exact hbusy u j hu'

theorem Heap.Busy.give (hbusy : H.Busy) (hv : H.arena v = some k) (hb : b / 4096 = v)
    (hne : H.freeCnt v k + 1 ≠ blocksPerArena k) : (H.give k b).Busy := by
  intro u j hu
  have hlt := hbusy u j hu
  by_cases huv : u = v
  · subst huv
    have hu' : H.arena u = some j := hu
    rw [hv] at hu'
    obtain rfl := Option.some.inj hu'
    rw [freeCnt_give_self H hb]
    omega
  · rw [freeCnt_give_ne H (by rw [hb]; exact Ne.symm huv)]
    exact hlt

theorem Heap.Busy.dropArena (hbusy : H.Busy) (hb : b / 4096 = v) : ((H.give k b).dropArena v k).Busy := by
  intro u j hu
  by_cases huv : u = v
  · subst huv
    unfold Heap.dropArena at hu
    simp only [update_self] at hu
    cases hu
  · have hu' : H.arena u = some j := by
      unfold Heap.dropArena at hu
      simp only [update_of_ne huv] at hu
      exact hu
    refine lt_of_le_of_lt (freeCnt_dropArena_le _ v k u j) ?_
    rw [freeCnt_give_ne H (by rw [hb]; exact Ne.symm huv)]
    exact hbusy u j hu'

/-! ## What happens to the blocks -/

/-- The first block of a list is taken. -/
theorem take_block (hv : H.arena v = some k) (hi : i < blocksPerArena k) (hf : H.free k = blockAt v k i :: rest)
    (hnot : blockAt v k i ∉ rest) : (H.take k).Block c m ↔ c = blockAt v k i ∧ m = blockSize k ∨ H.Block c m := by
  have htail : (H.take k).free k = rest := by
    unfold Heap.take
    simp only [update_self, hf, List.tail_cons]
  have hother : ∀ j, j ≠ k → (H.take k).free j = H.free j := fun j hj => update_of_ne hj ..
  constructor
  · rintro (⟨u, j, l, hu, hl, hn⟩ | ⟨u, n, hu⟩)
    · by_cases hjk : j = k
      · subst hjk
        by_cases he : blockAt u j l = blockAt v j i
        · exact .inl ⟨he, rfl⟩
        · refine .inr (.small u j l hu hl ?_)
          rw [htail] at hn
          rw [hf, List.mem_cons]
          exact fun hc => hc.elim he hn
      · rw [hother j hjk] at hn
        exact .inr (.small u j l hu hl hn)
    · exact .inr (.large u n hu)
  · rintro (⟨rfl, rfl⟩ | hc)
    · exact .small v k i hv hi (by rwa [htail])
    · cases hc with
      | small u j l hu hl hn =>
        refine .small u j l hu hl ?_
        by_cases hjk : j = k
        · subst hjk
          rw [htail]
          rw [hf] at hn
          exact fun hc => hn (List.mem_cons_of_mem _ hc)
        · rwa [hother j hjk]
      | large u n hu => exact .large u n hu

theorem takes_block (h : HeapOk s H) (hk : k < descCnt) (hf : H.free k = b :: rest) :
    (H.take k).Block c m ↔ c = b ∧ m = blockSize k ∨ H.Block c m := by
  obtain ⟨harena, i, hi, hbi⟩ := h.block k hk b (by rw [hf]; exact List.mem_cons_self)
  have hd := (h.list k hk).list.nodup_mid
  rw [hf] at hd
  have hnot := (List.nodup_cons.1 hd).1
  rw [hbi] at hf hnot
  rw [take_block harena hi hf hnot, ← hbi]

theorem addsArena_block (hf : H.free k = []) (hnew : ¬ H.used v) : (H.addArena v k).Block c m ↔ H.Block c m := by
  have hv : H.arena v = none := by
    by_contra hc
    exact hnew (.inl hc)
  have hself : (H.addArena v k).free k = Heap.blocks v k (blocksPerArena k) := update_self ..
  have hother : ∀ j, j ≠ k → (H.addArena v k).free j = H.free j := fun j hj => update_of_ne hj ..
  constructor
  · rintro (⟨u, j, l, hu, hl, hnot⟩ | ⟨u, n, hu⟩)
    · unfold Heap.addArena at hu
      by_cases huv : u = v
      · subst huv
        simp only [update_self] at hu
        obtain rfl := Option.some.inj hu
        rw [hself] at hnot
        exact absurd (mem_blocks.2 ⟨l, hl, rfl⟩) hnot
      · simp only [update_of_ne huv] at hu
        refine .small u j l hu hl ?_
        by_cases hjk : j = k
        · rw [hjk, hf]
          exact List.not_mem_nil
        · rwa [hother j hjk] at hnot
    · exact .large u n hu
  · intro hc
    cases hc with
    | small u j l hu hl hnot =>
      have huv : u ≠ v := by
        rintro rfl
        rw [hv] at hu
        cases hu
      refine .small u j l ?_ hl ?_
      · unfold Heap.addArena
        simp only [update_of_ne huv]
        exact hu
      · by_cases hjk : j = k
        · subst hjk
          rw [hself]
          intro hc
          obtain ⟨i, hi, he⟩ := mem_blocks.1 hc
          have := blockAt_div (v := u) hl
          rw [he, blockAt_div hi] at this
          exact huv this.symm
        · rwa [hother j hjk]
    | large u n hu => exact .large u n hu

theorem addArena_free (hk : k < descCnt) : ∃ rest, (H.addArena v k).free k = blockAt v k 0 :: rest ∧ blockAt v k 0 ∉ rest := by
  obtain ⟨n, hn⟩ := Nat.exists_eq_succ_of_ne_zero (Nat.ne_of_gt (blocksPerArena_pos hk))
  refine ⟨(List.range n).map (fun i => blockAt v k (i + 1)), ?_, fun hc => ?_⟩
  · unfold Heap.addArena Heap.blocks
    simp only [update_self, hn, Nat.succ_eq_add_one, List.range_succ_eq_map, List.map_cons, List.map_map]
    rfl
  · obtain ⟨i, -, he⟩ := List.mem_map.1 hc
    have := blockAt_inj he
    omega

/-- A new arena whose first block is taken. -/
theorem takesArena_block (hk : k < descCnt) (hf : H.free k = []) (hnew : ¬ H.used v) :
    ((H.addArena v k).take k).Block c m ↔ c = blockAt v k 0 ∧ m = blockSize k ∨ H.Block c m := by
  obtain ⟨rest, hfree, hnot⟩ := addArena_free (H := H) (v := v) hk
  rw [take_block (update_self ..) (blocksPerArena_pos hk) hfree hnot, addsArena_block hf hnew]

theorem addsLarge_block (hnew : H.large v = none) : (H.addLarge v n).Block c m ↔
    c = 4096 * v + arenaSize ∧ m = 4096 * n - arenaSize ∨ H.Block c m := by
  constructor
  · rintro (⟨u, j, l, hu, hl, hnot⟩ | ⟨u, x, hu⟩)
    · exact .inr (.small u j l hu hl hnot)
    · unfold Heap.addLarge at hu
      by_cases huv : u = v
      · subst huv
        simp only [update_self] at hu
        exact .inl ⟨rfl, by rw [Option.some.inj hu]⟩
      · simp only [update_of_ne huv] at hu
        exact .inr (.large u x hu)
  · rintro (⟨rfl, rfl⟩ | hc)
    · exact .large v n (update_self ..)
    · cases hc with
      | small u j l hu hl hnot => exact .small u j l hu hl hnot
      | large u x hu =>
        have huv : u ≠ v := by
          rintro rfl
          rw [hnew] at hu
          cases hu
        exact .large u x ((update_of_ne huv ..).trans hu)

theorem gives_block (h : HeapOk s H) (hv : H.arena v = some k) (hi : i < blocksPerArena k) :
    (H.give k (blockAt v k i)).Block c m ↔ H.Block c m ∧ c ≠ blockAt v k i := by
  have hself : (H.give k (blockAt v k i)).free k = H.free k ++ [blockAt v k i] := update_self ..
  have hother : ∀ j, j ≠ k → (H.give k (blockAt v k i)).free j = H.free j := fun j hj => update_of_ne hj ..
  -- a block of another descriptor is in another page
  have hpage : ∀ u j l, H.arena u = some j → l < blocksPerArena j → blockAt u j l = blockAt v k i → j = k := by
    intro u j l hu hl he
    have huv : u = v := by rw [← blockAt_div (v := u) hl, he, blockAt_div hi]
    rw [huv, hv] at hu
    exact (Option.some.inj hu).symm
  constructor
  · rintro (⟨u, j, l, hu, hl, hnot⟩ | ⟨u, n, hu⟩)
    · by_cases hjk : j = k
      · subst hjk
        rw [hself, List.mem_append, List.mem_singleton, not_or] at hnot
        exact ⟨.small u j l hu hl hnot.1, hnot.2⟩
      · rw [hother j hjk] at hnot
        exact ⟨.small u j l hu hl hnot, fun he => hjk (hpage u j l hu hl he)⟩
    · refine ⟨.large u n hu, fun he => ?_⟩
      have hp := blockAt_page (v := v) hi
      have := blockSize_pos k
      have := (h.big u n hu).pos
      unfold arenaSize at he
      exact h.mixed v k u n hv hu (by omega)
  · rintro ⟨hc, hne⟩
    cases hc with
    | small u j l hu hl hnot =>
      refine .small u j l hu hl ?_
      by_cases hjk : j = k
      · subst hjk
        rw [hself, List.mem_append, List.mem_singleton, not_or]
        exact ⟨hnot, hne⟩
      · rwa [hother j hjk]
    | large u n hu => exact .large u n hu

theorem dropsArena_block (h : HeapOk s H) (hv : H.arena v = some k) (hfull : H.freeCnt v k = blocksPerArena k) :
    (H.dropArena v k).Block c m ↔ H.Block c m := by
  have hk := (h.small v k hv).kind
  have hself : (H.dropArena v k).free k = (H.free k).filter fun b => b / 4096 ≠ v := update_self ..
  have hother : ∀ j, j ≠ k → (H.dropArena v k).free j = H.free j := fun j hj => update_of_ne hj ..
  constructor
  · rintro (⟨u, j, l, hu, hl, hnot⟩ | ⟨u, n, hu⟩)
    · unfold Heap.dropArena at hu
      by_cases huv : u = v
      · subst huv
        simp only [update_self] at hu
        cases hu
      · simp only [update_of_ne huv] at hu
        refine .small u j l hu hl fun hc => hnot ?_
        by_cases hjk : j = k
        · subst hjk
          rw [hself, List.mem_filter, blockAt_div hl]
          exact ⟨hc, by simpa using huv⟩
        · rwa [hother j hjk]
    · exact .large u n hu
  · intro hc
    cases hc with
    | small u j l hu hl hnot =>
      have huv : u ≠ v := by
        rintro rfl
        rw [hv] at hu
        obtain rfl := Option.some.inj hu
        exact hnot (h.all_free hk hfull hl)
      refine .small u j l ((update_of_ne huv ..).trans hu) hl fun hc => hnot ?_
      by_cases hjk : j = k
      · subst hjk
        rw [hself, List.mem_filter] at hc
        exact hc.1
      · rwa [hother j hjk] at hc
    | large u n hu => exact .large u n hu

theorem dropsLarge_block (h : HeapOk s H) (hv : H.large v = some n) :
    (H.dropLarge v).Block c m ↔ H.Block c m ∧ c ≠ 4096 * v + arenaSize := by
  constructor
  · rintro (⟨u, j, l, hu, hl, hnot⟩ | ⟨u, x, hu⟩)
    · refine ⟨.small u j l hu hl hnot, fun he => ?_⟩
      have hp := blockAt_page (v := u) hl
      have := blockSize_pos j
      have := (h.big v n hv).pos
      unfold arenaSize at he
      exact h.mixed u j v n hu hv (by omega)
    · unfold Heap.dropLarge at hu
      by_cases huv : u = v
      · subst huv
        simp only [update_self] at hu
        cases hu
      · simp only [update_of_ne huv] at hu
        exact ⟨.large u x hu, by omega⟩
  · rintro ⟨hc, hne⟩
    cases hc with
    | small u j l hu hl hnot => exact .small u j l hu hl hnot
    | large u x hu =>
      have huv : u ≠ v := fun he => hne (by rw [he])
      exact .large u x ((update_of_ne huv ..).trans hu)

end

end Enix.Memory
