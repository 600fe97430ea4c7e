import Enix.Memory.Malloc

/-!
# `sys_free` of a process

* `giveBlock_spec`: a block goes to the end of its list.
* `removeBlocks_spec`: all blocks of an arena are taken off.
* `sysFree_spec`: `sys_free` of a block that was handed out takes it from the blocks
  (`Freed`), and stops only in `mfree_page`, for the pages of a large arena that are
  in both pools.
-/
set_option autoImplicit false

namespace Enix.Memory
open Enix.Core Enix.Kernel Function

namespace Heap

/-- What `sys_free(b)` leaves. -/
inductive Returned (H : Heap) : Nat → Heap → Prop
  | block (v k i : Nat) : H.arena v = some k → i < blocksPerArena k → H.freeCnt v k + 1 ≠ blocksPerArena k →
      Returned H (blockAt v k i) (H.give k (blockAt v k i))
  | arena (v k i : Nat) : H.arena v = some k → i < blocksPerArena k → H.freeCnt v k + 1 = blocksPerArena k →
      Returned H (blockAt v k i) ((H.give k (blockAt v k i)).dropArena v k)
  | large (v n : Nat) : H.large v = some n → Returned H (4096 * v + arenaSize) (H.dropLarge v)

end Heap

section
variable {L : Spaces} {s s₁ s' : Vm} {t : TaskStruct} {H : Heap} {A : Nat → Prop} {a b i j k v u n x : Nat}
  {F : List Nat}

/-! ## Lists and headers -/

/-- The nodes of a list of blocks leave the headers of arenas alone. -/
theorem HeapOk.nodes_head (h : HeapOk s H) (hk : k < descCnt)
    (ha : onNodes (· ∈ listNodes (s.desc k + 8) (H.free k)) a) : ¬ (4096 * u ≤ a ∧ a < 4096 * u + 12) := by
  obtain ⟨n, hn, h1, h2⟩ := ha
  have hd := desc_page (s := s) hk
  rcases mem_listNodes.1 hn with rfl | hn | rfl
  · omega
  · obtain ⟨-, i, hi, he⟩ := h.block k hk n hn
    have hp := blockAt_page (v := n / 4096) hi
    have := blockSize_ge k
    omega
  · omega

/-! ## Giving back a block -/

/-- The first half of `sys_free`: list and count. -/
theorem giveBlock_spec (hr : Running L s t) (h : HeapOk s H) (hv : H.arena v = some k) (hi : i < blocksPerArena k)
    (hnot : blockAt v k i ∉ H.free k) : ∃ s₁ s', listAppend (s.desc k + 8) (blockAt v k i) s = .ok ((), s₁) ∧
      loadWord (4096 * v + 4) s₁ = .ok (H.freeCnt v k, s₁) ∧
      storeWord (4096 * v + 4) ((H.freeCnt v k + 1) % 4294967296) s₁ = .ok ((), s') ∧
      HeapOk s' (H.give k (blockAt v k i)) ∧
      Pokes L s s' (fun a => H.books s a ∨ blockAt v k i ≤ a ∧ a < blockAt v k i + blockSize k) := by
  have hsm := h.small v k hv
  have hk := hsm.kind
  have huser := hsm.user
  have hcur := hr.kernelBase_le
  have hbp := blockAt_page (v := v) hi
  have hdp := desc_page (s := s) hk
  have hl := h.list k hk
  have hown₄ : s.own ((4096 * v + 4) / 4096) := by
    rw [show (4096 * v + 4) / 4096 = v by omega]
    exact hsm.own
  have hnodes : blockAt v k i ∉ listNodes (s.desc k + 8) (H.free k) := by
    rw [mem_listNodes]
    rintro (hc | hc | hc)
    · omega
    · exact hnot hc
    · omega
  obtain ⟨s₁, hrun₁, hp₁, hl₁⟩ := listAppend_spec hr hl (node_block hsm.own hi) hnodes
  have h₁ := hp₁.running hr
  have hhead : ∀ a, 4096 * v ≤ a → a < 4096 * v + 12 →
      ¬ onNodes (fun n => n ∈ listNodes (s.desc k + 8) (H.free k) ∨ n = blockAt v k i) a := by
    rintro a h1 h2 ⟨n, hn | rfl, h3, h4⟩
    · exact h.nodes_head hk ⟨n, hn, h3, h4⟩ ⟨h1, h2⟩
    · omega
  have hcnt : s₁.wordAt (4096 * v + 4) = H.freeCnt v k := by
    rw [hp₁.word hown₄ (by omega) fun j hj => hhead _ (by omega) (by omega)]
    exact hsm.freeCnt
  have hle := freeCnt_le (v := v) h hk
  have hper : blocksPerArena k ≤ 4084 := Nat.div_le_self (4096 - arenaSize) (blockSize k)
  have hmod : (H.freeCnt v k + 1) % 4294967296 = H.freeCnt v k + 1 := Nat.mod_eq_of_lt (by omega)
  obtain ⟨s', hrun', hp', hw'⟩ := storeWord_spec (w := H.freeCnt v k + 1) h₁ ((hp₁.own hr).2 hown₄) (by omega) (by omega)
  have hA : Pokes L s s' fun a => onNodes (fun n => n ∈ listNodes (s.desc k + 8) (H.free k) ∨ n = blockAt v k i) a ∨
      4096 * v + 4 ≤ a ∧ a < 4096 * v + 8 :=
    (hp₁.mono fun a ha => .inl ha).trans hr (hp'.mono fun a ha => .inr ⟨ha.1, by omega⟩)
  have hpages : ∀ a, (onNodes (fun n => n ∈ listNodes (s.desc k + 8) (H.free k) ∨ n = blockAt v k i) a ∨
      4096 * v + 4 ≤ a ∧ a < 4096 * v + 8) → onNodes (· ∈ listNodes (s.desc k + 8) (H.free k)) a ∨ a / 4096 = v := by
    rintro a (⟨n, hn | rfl, h3, h4⟩ | ha)
    · exact .inl ⟨n, hn, h3, h4⟩
    · have := blockSize_ge k
      exact .inr (by omega)
    · exact .inr (by omega)
  refine ⟨s₁, s', hrun₁, ?_, by rw [hmod]; exact hrun', ?_, hA.mono fun a ha => ?_⟩
  · rw [loadWord_spec ((hp₁.own hr).2 hown₄) (by omega), hcnt]
  · refine h.edit hr hA hk hpages huser (.inr hv) (fun u n hu hc => h.mixed v k u n hv hu hc)
      (fun j hj => update_of_ne hj ..) (fun u hu => rfl) rfl
      (fun u hu => freeCnt_give_ne H (by rw [blockAt_div hi]; exact Ne.symm hu)) ?_ ?_ ?_
    · unfold Heap.give
      simp only [update_self]
      refine hl₁.pokes h₁ hp' fun n hn a h1 h2 ha => ?_
      refine hhead a (by omega) (by omega) ⟨n, ?_, h1, h2⟩
      rw [mem_listNodes, List.mem_append, List.mem_singleton] at hn
      rw [mem_listNodes]
      tauto
    · intro c hc
      unfold Heap.give at hc
      simp only [update_self, List.mem_append, List.mem_singleton] at hc
      rcases hc with hc | rfl
      · exact h.block k hk c hc
      · rw [blockAt_div hi]
        exact ⟨hv, i, hi, rfl⟩
    · intro j hj
      have hj' : H.arena v = some j := hj
      rw [hv] at hj'
      rw [← Option.some.inj hj']
      have hout : ∀ a, 4096 * v ≤ a → a < 4096 * v + 12 → ¬ (4096 * v + 4 ≤ a ∧ a < 4096 * v + 8) →
          ¬ (onNodes (fun n => n ∈ listNodes (s.desc k + 8) (H.free k) ∨ n = blockAt v k i) a ∨
            4096 * v + 4 ≤ a ∧ a < 4096 * v + 8) := fun a h1 h2 h3 hc => hc.elim (hhead a h1 h2) h3
      refine ⟨hk, huser, by rw [hA.walk hr]; exact hsm.page, ?_, ?_, ?_⟩
      · rw [hA.word (by rw [show 4096 * v / 4096 = v by omega]; exact hsm.own) (by omega)
          fun i hi => hout _ (by omega) (by omega) (by omega), hA.desc]
        exact hsm.desc
      · rw [hw', freeCnt_give_self H (blockAt_div hi)]
      · rw [hA.byte _ (by rw [show (4096 * v + 8) / 4096 = v by omega]; exact hsm.own) (hout _ (by omega) (by omega) (by omega))]
        exact hsm.large
  · rcases ha with ⟨n, hn | rfl, h3, h4⟩ | ha
    · exact .inl (nodes_books hk ⟨n, hn, h3, h4⟩)
    · have := blockSize_ge k
      exact .inr (by omega)
    · exact .inl (.inr (.inl ⟨v, .inl (by rw [hv]; simp), by omega, by unfold arenaSize; omega⟩))

/-! ## Giving back an arena -/

/-- The blocks of `F` that are not among those of the arena from `i` on. -/
def before (v k i : Nat) (F : List Nat) : List Nat := F.filter fun b => b / 4096 ≠ v ∨ b < blockAt v k i

/-- A list of blocks, those of page `v` of an arena of `k`. -/
def ArenaList (v k : Nat) (F : List Nat) : Prop :=
  ∀ b ∈ F, b / 4096 < kernelBase ∧ 12 ≤ b % 4096 ∧ (b / 4096 = v → ∃ i, i < blocksPerArena k ∧ b = blockAt v k i)

theorem blockAt_lt : blockAt v k i < blockAt v k j ↔ i < j := by
  unfold blockAt
  rw [Nat.add_lt_add_iff_left]
  exact Nat.mul_lt_mul_right (blockSize_pos k)

/-- Taking off block `i`. -/
theorem before_remove {as bs : List Nat} (hF : ArenaList v k (as ++ blockAt v k i :: bs))
    (hd : (as ++ blockAt v k i :: bs).Nodup) (hi : i < blocksPerArena k) :
    before v k (i + 1) (as ++ bs) = before v k i (as ++ blockAt v k i :: bs) := by
  have hsame : ∀ b, b ∈ as ∨ b ∈ bs →
      (decide (b / 4096 ≠ v ∨ b < blockAt v k (i + 1)) = decide (b / 4096 ≠ v ∨ b < blockAt v k i)) := by
    intro b hb
    have hmem : b ∈ as ++ blockAt v k i :: bs := by
      simp only [List.mem_append, List.mem_cons]
      tauto
    have hne : b ≠ blockAt v k i := by
      rintro rfl
      rw [List.nodup_append, List.nodup_cons] at hd
      rcases hb with hb | hb
      · exact hd.2.2 _ hb _ List.mem_cons_self rfl
      · exact hd.2.1.1 hb
    refine decide_eq_decide.2 ?_
    by_cases hv : b / 4096 = v
    · obtain ⟨j, -, rfl⟩ := (hF b hmem).2.2 hv
      have hji : j ≠ i := fun hc => hne (by rw [hc])
      rw [blockAt_lt, blockAt_lt]
      omega
    · simp [hv]
  have hself : ¬ (blockAt v k i / 4096 ≠ v ∨ blockAt v k i < blockAt v k i) := by
    rw [blockAt_div hi]
    omega
  unfold before
  rw [List.filter_append, List.filter_append, List.filter_cons_of_neg (by simpa using hself),
    List.filter_congr fun b hb => hsame b (.inl hb), List.filter_congr fun b hb => hsame b (.inr hb)]

theorem removeBlocks_spec (hk : k < descCnt) : ∀ n i F s, Running L s t → s.own v →
    ListAt s (s.desc k + 8) F → ArenaList v k F → s.wordAt (4096 * v) = s.desc k → s.wordAt (s.desc k) = blockSize k →
    i + n = blocksPerArena k → (∀ j, i ≤ j → j < blocksPerArena k → blockAt v k j ∈ F) →
    ∃ s', removeBlocks v i n s = .ok ((), s') ∧ Pokes L s s' (onNodes (· ∈ listNodes (s.desc k + 8) F)) ∧
      ListAt s' (s.desc k + 8) (before v k i F) := by
  intro n
  induction n with
  | zero =>
    intro i F s hr _ hl hF _ _ hi _
    refine ⟨s, rfl, .refl hr.sound _, ?_⟩
    unfold before
    rw [List.filter_eq_self.2 fun b hb => ?_]
    · exact hl
    · by_cases hbv : b / 4096 = v
      · -- the blocks of the list that are in the page are blocks of the arena
        obtain ⟨j, hj, rfl⟩ := (hF b hb).2.2 hbv
        simpa using .inr (blockAt_lt.2 (by omega : j < i))
      · simpa using .inl hbv
  | succ n ih =>
    intro i F s hr hown hl hF hhead hsize hi hall
    have hcur := hr.kernelBase_le
    have hdp := desc_page (s := s) hk
    have hdm := desc_mod s k
    have hib : i < blocksPerArena k := by omega
    have hmem := hall i (le_refl i) hib
    obtain ⟨as, bs, rfl⟩ := List.append_of_mem hmem
    have hown₀ : s.own (4096 * v / 4096) := by rwa [show 4096 * v / 4096 = v by omega]
    have hownd := hr.own_desc hk (le_refl (s.desc k)) (by omega)
    obtain ⟨s₁, hrun₁, hp₁, hl₁⟩ := listRemove_spec hr hl
    have h₁ := hp₁.running hr
    have hsub : ∀ b, b ∈ as ++ bs → b ∈ as ++ blockAt v k i :: bs := fun b hb => by
      simp only [List.mem_append, List.mem_cons] at hb ⊢
      tauto
    have hnodes : ∀ n, n ∈ listNodes (s.desc k + 8) (as ++ bs) → n ∈ listNodes (s.desc k + 8) (as ++ blockAt v k i :: bs) :=
      fun n hn => by
        rw [mem_listNodes] at hn ⊢
        exact hn.imp_right fun hn => hn.imp_left (hsub n)
    have hword : ∀ a, s.own (a / 4096) → a % 4 = 0 → (a = 4096 * v ∨ a = s.desc k) → s₁.wordAt a = s.wordAt a := by
      intro a ha h4 hav
      refine hp₁.word ha h4 fun j hj hc => ?_
      obtain ⟨n, hn, h1, h2⟩ := hc
      rcases mem_listNodes.1 hn with rfl | hn' | rfl
      · omega
      · obtain ⟨hlt, hoff, -⟩ := hF n (hsub n hn')
        have hfit := (hl.node n (hnodes n hn)).fits
        omega
      · omega
    have hd := hp₁.desc k
    have hdn := hl.list.nodup_mid
    have hrest : ∀ j, i + 1 ≤ j → j < blocksPerArena k → blockAt v k j ∈ as ++ bs := fun j h1 h2 => by
      have hj := hall j (by omega) h2
      have hne : blockAt v k j ≠ blockAt v k i := fun hc => by
        have := blockAt_inj hc
        omega
      simp only [List.mem_append, List.mem_cons] at hj ⊢
      tauto
    obtain ⟨s', hrun', hp', hl'⟩ := ih (i + 1) (as ++ bs) s₁ h₁ ((hp₁.own hr).2 hown) (by rw [hd]; exact hl₁)
      (fun b hb => hF b (hsub b hb)) (by rw [hword _ hown₀ (by omega) (.inl rfl), hd]; exact hhead)
      (by rw [hd, hword _ hownd (by omega) (.inr rfl)]; exact hsize) (by omega) hrest
    rw [hd] at hp' hl'
    rw [before_remove hF hdn hib] at hl'
    refine ⟨s', ?_, (hp₁.mono fun a => onNodes_mono hnodes).trans hr (hp'.mono fun a => onNodes_mono hnodes), hl'⟩
    have hload := loadWord_spec hown₀ (by omega)
    rw [hhead] at hload
    have hblock : arena2block v i s = .ok (blockAt v k i, s) := by
      unfold arena2block
      rw [bind_ok hload, bind_ok (loadWord_spec hownd (by omega)), hsize]
      rfl
    unfold removeBlocks
    rw [bind_ok hblock, bind_ok hload, bind_ok (elemFind_spec hr hl _), decide_eq_true hmem, bind_ok (guard_run rfl _ s),
      bind_ok hrun₁]
    exact hrun'

/-- The blocks of the heap's lists. -/
theorem HeapOk.arenaList (h : HeapOk s H) (hk : k < descCnt) : ArenaList v k (H.free k) := by
  intro b hb
  obtain ⟨ha, i, hi, he⟩ := h.block k hk b hb
  have hp := blockAt_page (v := b / 4096) hi
  refine ⟨(h.small _ k ha).user, by omega, fun hv => ⟨i, hi, ?_⟩⟩
  rw [← hv]
  exact he

/-- All blocks of an arena in which none is live are taken off the list. -/
theorem dropArena_spec (hr : Running L s t) (h : HeapOk s H) (hv : H.arena v = some k)
    (hfull : H.freeCnt v k = blocksPerArena k) : ∃ s', removeBlocks v 0 (blocksPerArena k) s = .ok ((), s') ∧
      HeapOk s' (H.dropArena v k) ∧ Pokes L s s' (H.books s) := by
  have hsm := h.small v k hv
  have hk := hsm.kind
  have hl := h.list k hk
  obtain ⟨s', hrun, hp, hl'⟩ := removeBlocks_spec (v := v) hk (blocksPerArena k) 0 (H.free k) s hr hsm.own hl
    (h.arenaList hk) hsm.desc (h.size k hk) (Nat.zero_add _) fun j _ hj => h.all_free hk hfull hj
  have hbefore : before v k 0 (H.free k) = (H.dropArena v k).free k := by
    unfold before Heap.dropArena
    simp only [update_self]
    refine List.filter_congr fun b hb => decide_eq_decide.2 ?_
    obtain ⟨-, -, hblk⟩ := h.arenaList (v := v) hk b hb
    constructor
    · rintro (hne | hlt)
      · exact hne
      · intro hbv
        obtain ⟨j, -, rfl⟩ := hblk hbv
        have := blockAt_lt.1 hlt
        omega
    · exact .inl
  rw [hbefore] at hl'
  refine ⟨s', hrun, ?_, hp.mono fun a ha => nodes_books hk ha⟩
  refine h.edit hr hp hk (fun a ha => .inl ha) hsm.user (.inr hv) (fun u n hu hc => h.mixed v k u n hv hu hc)
    (fun j hj => update_of_ne hj ..) (fun u hu => update_of_ne hu ..) rfl (fun u hu => ?_) hl' (fun b hb => ?_) fun j hj => ?_
  · unfold Heap.freeCnt Heap.dropArena
    simp only [update_self]
    rw [List.filter_filter, List.filter_congr fun b hb => ?_]
    by_cases hb : b / 4096 = u
    · simp [hb, hu]
    · simp [hb]
  · unfold Heap.dropArena at hb ⊢
    simp only [update_self, List.mem_filter, decide_eq_true_eq] at hb ⊢
    rw [update_of_ne hb.2]
    exact h.block k hk b hb.1
  · unfold Heap.dropArena at hj
    simp only [update_self] at hj
    cases hj

/-! ## `sys_free` -/

/-- `sys_free` has taken back the block of `n` bytes at `b`: the heap has it no more,
and nothing has changed but it, the heap's books and the pages that are gone. -/
structure Freed (L : Spaces) (H : Heap) (t : TaskStruct) (b n : Nat) (s s' : Vm) (H' : Heap) : Prop where
  returned : H.Returned b H'
  ok : HeapOk s' H'
  blocks : ∀ c m, H'.Block c m ↔ H.Block c m ∧ c ≠ b
  gone : ∀ v, H.used v → ¬ H'.used v → s'.walk v = none
  running : Running L s' t
  within : Within L s s' H.used
  leaves : Leaves s s' fun a => H.books s a ∨ (b ≤ a ∧ a < b + n) ∨ H.used (a / 4096) ∧ ¬ H'.used (a / 4096)

/-- A page that the process has given back. -/
theorem FreedUser.walk (hr : Running L s t) (hs : Sound L s') (hg : FreedUser L s s' s.cur v n) (h1 : v ≤ u) (h2 : u < v + n)
    (hlt : u < kernelBase) : s'.walk u = none := by
  rw [walk_user (Effect.running hr hs hg.toEffect).inUse hlt, hg.rest.cur, refs_eq_none]
  exact hg.gone u h1 h2

/-- The books of a heap with one more free block. -/
theorem give_books (ha : (H.give k b).books s a) : H.books s a ∨ b ≤ a ∧ a < b + 8 := by
  rcases ha with hd | hh | ⟨j, c, hj, hc, h1, h2⟩
  · exact .inl (.inl hd)
  · exact .inl (.inr (.inl hh))
  · unfold Heap.give at hc
    by_cases hjk : j = k
    · subst hjk
      simp only [update_self, List.mem_append, List.mem_singleton] at hc
      rcases hc with hc | rfl
      · exact .inl (.inr (.inr ⟨j, c, hj, hc, h1, h2⟩))
      · exact .inr ⟨h1, h2⟩
    · simp only [update_of_ne hjk] at hc
      exact .inl (.inr (.inr ⟨j, c, hj, hc, h1, h2⟩))

theorem freeSmall_spec (hr : Running L s t) (h : HeapOk s H) (hv : H.arena v = some k) (hi : i < blocksPerArena k)
    (hnot : blockAt v k i ∉ H.free k) : runs (fun _ => False) (freeSmall .user (blockAt v k i))
      (fun _ s' => ∃ H', Freed L H t (blockAt v k i) (blockSize k) s s' H') s := by
  have hsm := h.small v k hv
  have hk := hsm.kind
  have hcur := hr.kernelBase_le
  have hdp := desc_page (s := s) hk
  have hdm := desc_mod s k
  have hbp := blockAt_page (v := v) hi
  have hown₀ : ∀ {r : Vm}, r.own v → r.own (4096 * v / 4096) := fun ho => by rwa [show 4096 * v / 4096 = v by omega]
  have hused : H.used v := .inl (by rw [hv]; simp)
  obtain ⟨s₁, s₂, hrun₁, hload, hrun₂, hok₂, hp₂⟩ := giveBlock_spec hr h hv hi hnot
  have h₂ := hp₂.running hr
  have hd := hp₂.desc k
  have hcur₂ : s₂.cur = s.cur := hp₂.toStored.cur
  have hv₂ : (H.give k (blockAt v k i)).arena v = some k := hv
  have hsm₂ := hok₂.small v k hv₂
  have hle := freeCnt_le (v := v) h hk
  have hper : blocksPerArena k ≤ 4084 := Nat.div_le_self (4096 - arenaSize) (blockSize k)
  have hcnt : (H.freeCnt v k + 1) % 4294967296 = H.freeCnt v k + 1 := Nat.mod_eq_of_lt (by omega)
  have hhead := loadWord_spec (hown₀ hsm.own) (by omega)
  rw [hsm.desc] at hhead
  have hhead₂ := loadWord_spec (hown₀ hsm₂.own) (by omega)
  rw [hsm₂.desc, hd] at hhead₂
  have hcount₂ : loadWord (s.desc k + 4) s₂ = .ok (blocksPerArena k, s₂) := by
    rw [← hd, loadWord_spec (h₂.own_desc hk (by omega) (by omega)) (by omega), hok₂.count k hk]
  unfold freeSmall block2arena
  rw [blockAt_div hi, runs_bind_ok hhead, runs_bind_ok hrun₁, runs_bind_ok hload]
  simp only
  rw [runs_bind_ok hrun₂, runs_bind_ok hhead₂, runs_bind_ok hcount₂, hcnt]
  have hwithin : ∀ a, (H.books s a ∨ blockAt v k i ≤ a ∧ a < blockAt v k i + blockSize k) →
      a / 4096 = s.cur ∨ a / 4096 < kernelBase ∧ H.used (a / 4096) := fun a ha => by
    rcases ha with ha | ⟨h1, h2⟩
    · exact h.books_user ha
    · rw [show a / 4096 = v by omega]
      exact .inr ⟨hsm.user, hused⟩
  by_cases hfull : H.freeCnt v k + 1 = blocksPerArena k
  · rw [if_pos hfull]
    have hfull₂ : (H.give k (blockAt v k i)).freeCnt v k = blocksPerArena k := by
      rw [freeCnt_give_self H (blockAt_div hi), hfull]
    obtain ⟨s₃, hrun₃, hok₃, hp₃⟩ := dropArena_spec h₂ hok₂ hv₂ hfull₂
    have h₃ := hp₃.running h₂
    have hown₃ := (hp₃.own h₂).2 hsm₂.own
    have hcur₃ : s₃.cur = s.cur := hp₃.toStored.cur.trans hcur₂
    have hp : Pokes L s s₃ fun a => H.books s a ∨ blockAt v k i ≤ a ∧ a < blockAt v k i + blockSize k := by
      refine hp₂.trans hr (hp₃.mono fun a ha => ?_)
      rcases give_books ((books_cur hcur₂).1 ha) with ha | ⟨h1, h2⟩
      · exact .inl ha
      · have := blockSize_ge k
        exact .inr ⟨h1, by omega⟩
    rw [runs_bind_ok hrun₃]
    have hpage : ∀ u, v ≤ u → u < v + 1 → ∃ f, refs L s₃ (.pte s₃.cur u) = some f := fun u h1 h2 => by
      obtain rfl : u = v := by omega
      rw [← walk_user h₃.inUse hsm.user]
      exact Option.ne_none_iff_exists'.1 hown₃.2
    refine runs_mono (h₃.sound.mfreeUser h₃.task h₃.live (le_refl 1) hpage) ?_ ?_
    · rintro x ⟨-, hone⟩
      refine hone fun u f f₀ h1 h2 hf₀ hf => ?_
      obtain rfl : u = v := by omega
      rw [hf₀] at hf
      rw [Option.some.inj hf]
    · rintro - s' ⟨hs', hg, -⟩
      have hr' := Effect.running h₃ hs' hg.toEffect
      have hnot' : ¬ ((H.give k (blockAt v k i)).dropArena v k).used v := by
        rintro (hc | ⟨u, n, hu, h1, h2⟩)
        · unfold Heap.dropArena at hc
          simp only [update_self, ne_eq, not_true_eq_false] at hc
        · exact h.mixed v k u n hv hu ⟨h1, h2⟩
      have hsame := hg.samePages h₃ hs'
      refine ⟨_, .arena v k i hv hi hfull, ?_, fun c m => ?_, fun u hu hn => ?_, hr', ?_, ?_⟩
      · refine hok₃.samePages h₃ hg.rest.cur hsame fun u hu => ?_
        have hne : u ≠ v := by
          rintro rfl
          rcases hu with hu | hu
          · have := hsm.user
            omega
          · exact hnot' hu
        omega
      · rw [dropsArena_block hok₂ hv₂ hfull₂, gives_block h hv hi]
      · have huv : u = v := by
          by_contra hc
          refine hn (hu.imp (fun ha => ?_) fun hb => hb)
          unfold Heap.dropArena Heap.give
          simp only [update_of_ne hc]
          exact ha
        rw [huv]
        exact hg.walk h₃ hs' (le_refl v) (by omega) hsm.user
      · exact (hp.within hr hwithin).trans (hg.within h₃ _)
      · refine ((hp.leaves hr).trans hsame.leaves).mono fun a _ ha => ?_
        rcases ha with (ha | ha) | ha
        · exact .inl ha
        · exact .inr (.inl ha)
        · have hav : a / 4096 = v := by omega
          rw [hav]
          exact .inr (.inr ⟨hused, hnot'⟩)
  · rw [if_neg hfull, runs_pure]
    exact ⟨_, .block v k i hv hi hfull, hok₂, fun c m => gives_block h hv hi, fun u hu hn => absurd hu hn, h₂,
      hp₂.within hr hwithin, (hp₂.leaves hr).mono fun a _ ha => ha.imp_right .inl⟩

theorem HeapOk.dropLarge (h : HeapOk s H) : HeapOk s (H.dropLarge v) where
  size := h.size
  count := h.count
  list := h.list
  block := h.block
  small u k hu := by
    have hs := h.small u k hu
    exact ⟨hs.kind, hs.user, hs.page, hs.desc, hs.freeCnt, hs.large⟩
  big u n hu := by
    unfold Heap.dropLarge at hu
    by_cases huv : u = v
    · rw [huv] at hu
      simp only [update_self] at hu
      cases hu
    · simp only [update_of_ne huv] at hu
      exact h.big u n hu
  mixed u k w n hu hw := by
    unfold Heap.dropLarge at hw
    by_cases hwv : w = v
    · rw [hwv] at hw
      simp only [update_self] at hw
      cases hw
    · simp only [update_of_ne hwv] at hw
      exact h.mixed u k w n hu hw
  apart u n w m hu hw := by
    unfold Heap.dropLarge at hu hw
    by_cases huv : u = v
    · rw [huv] at hu
      simp only [update_self] at hu
      cases hu
    · by_cases hwv : w = v
      · rw [hwv] at hw
        simp only [update_self] at hw
        cases hw
      · simp only [update_of_ne huv] at hu
        simp only [update_of_ne hwv] at hw
        exact h.apart u n w m hu hw

/-- The pages of a large arena are its own. -/
theorem HeapOk.large_only (h : HeapOk s H) (hv : H.large v = some n) (h1 : v ≤ u) (h2 : u < v + n) :
    ¬ (H.dropLarge v).used u := by
  rintro (hc | ⟨w, m, hw, h3, h4⟩)
  · obtain ⟨k, hk⟩ := Option.ne_none_iff_exists'.1 hc
    exact h.mixed u k v n hk hv ⟨h1, h2⟩
  · unfold Heap.dropLarge at hw
    by_cases hwv : w = v
    · rw [hwv] at hw
      simp only [update_self] at hw
      cases hw
    · simp only [update_of_ne hwv] at hw
      have := h.apart v n w m hv hw
      omega

/-- `sys_free` of a live block. It stops if the pages of a large block are in
both pools, and only then. -/
theorem sysFree_spec (hr : Running L s t) (h : HeapOk s H) (hb : H.Block b x) :
    runs (fun e => e = .assertion .mfreePage ∧ ∃ v n, H.large v = some n ∧ b = 4096 * v + arenaSize ∧ ¬ OnePool L s s.cur v n)
      (sysFree b) (fun _ s' => ∃ H', Freed L H t b x s s' H') s := by
  have hpg : t.pgdir ≠ 0 := TaskStruct.live_pgdir hr.live
  have hcur := hr.kernelBase_le
  cases hb with
  | small v k i hv hi hnot =>
    have hsm := h.small v k hv
    have hbp := blockAt_page (v := v) hi
    have hlarge : loadByte (4096 * v + 8) s = .ok (0, s) := by
      rw [loadByte_spec (by rw [show (4096 * v + 8) / 4096 = v by omega]; exact hsm.own), hsm.large]
    have hhead : loadWord (4096 * v) s = .ok (s.desc k, s) := by
      rw [loadWord_spec (by rw [show 4096 * v / 4096 = v by omega]; exact hsm.own) (by omega), hsm.desc]
    unfold sysFree block2arena
    rw [runs_bind_ok (guard_run (by omega) _ s), runs_bind_ok (runningThread_run rfl hr.task), if_neg hpg,
      runs_bind_ok (guard_run (.inl hpg) _ s), blockAt_div hi, runs_bind_ok hlarge,
      runs_bind_ok (guard_run (.inl rfl) _ s), runs_bind_ok hhead, if_neg (by rintro ⟨-, hc⟩; cases hc)]
    exact runs_mono (freeSmall_spec hr h hv hi hnot) (fun _ hx => hx.elim) fun _ _ hq => hq
  | large v n hv =>
    have hl := h.big v n hv
    have hpos := hl.pos
    have hown := hl.own (le_refl v) (by omega)
    have hat : ∀ o, o < 4096 → s.own ((4096 * v + o) / 4096) := fun o ho => by
      rwa [show (4096 * v + o) / 4096 = v by omega]
    have hlarge : loadByte (4096 * v + 8) s = .ok (1, s) := by rw [loadByte_spec (hat 8 (by omega)), hl.large]
    have hhead : loadWord (4096 * v) s = .ok (0, s) := by
      rw [loadWord_spec (by rw [show 4096 * v / 4096 = v by omega]; exact hown) (by omega), hl.desc]
    have hcnt : loadWord (4096 * v + 4) s = .ok (n, s) := by rw [loadWord_spec (hat 4 (by omega)) (by omega), hl.freeCnt]
    unfold sysFree block2arena
    rw [show (4096 * v + arenaSize) / 4096 = v by unfold arenaSize; omega,
      runs_bind_ok (guard_run (by unfold arenaSize; omega) _ s), runs_bind_ok (runningThread_run rfl hr.task), if_neg hpg,
      runs_bind_ok (guard_run (.inl hpg) _ s), runs_bind_ok hlarge, runs_bind_ok (guard_run (.inr rfl) _ s),
      runs_bind_ok hhead, if_pos ⟨rfl, rfl⟩, runs_bind_ok hcnt]
    have hpage : ∀ u, v ≤ u → u < v + n → ∃ f, refs L s (.pte s.cur u) = some f := fun u h1 h2 => by
      rw [← walk_user hr.inUse (hl.pages u h1 h2).1]
      exact Option.ne_none_iff_exists'.1 (hl.pages u h1 h2).2
    refine runs_mono (hr.sound.mfreeUser hr.task hr.live hpos hpage) ?_ ?_
    · rintro e ⟨rfl, hone⟩
      exact ⟨rfl, v, n, hv, rfl, hone⟩
    · rintro - s' ⟨hs', hg, -⟩
      have hsame := hg.samePages hr hs'
      have hout : ∀ u, u = s.cur ∨ (H.dropLarge v).used u → u < v ∨ v + n ≤ u := fun u hu => by
        by_contra hc
        rcases hu with hu | hu
        · have := (hl.pages u (by omega) (by omega)).1
          omega
        · exact h.large_only hv (by omega) (by omega) hu
      refine ⟨_, .large v n hv, h.dropLarge.samePages hr hg.rest.cur hsame hout, fun c m => dropsLarge_block h hv,
        fun u hu hn => ?_, Effect.running hr hs' hg.toEffect, hg.within hr _, hsame.leaves.mono fun a _ ha => ?_⟩
      · have huv : v ≤ u ∧ u < v + n := by
          rcases hu with hu | ⟨w, m, hw, h1, h2⟩
          · exact absurd (.inl hu) hn
          · by_cases hwv : w = v
            · rw [hwv] at hw h1 h2
              rw [hv] at hw
              have := Option.some.inj hw
              omega
            · refine absurd (.inr ⟨w, m, ?_, h1, h2⟩) hn
              unfold Heap.dropLarge
              simp only [update_of_ne hwv]
              exact hw
        exact hg.walk hr hs' huv.1 huv.2 (hl.pages u huv.1 huv.2).1
      · exact .inr (.inr ⟨.inr ⟨v, n, hv, by omega, by omega⟩, h.large_only hv (by omega) (by omega)⟩)

/-! ## What is given back -/

theorem Heap.Returned.used {H' : Heap} (hh : H.Returned b H') (hu : H'.used u) : H.used u := by
  cases hh with
  | block v k i _ _ _ => exact hu
  | arena v k i hv _ _ =>
    refine hu.imp (fun ha => ?_) fun hl => hl
    unfold Heap.dropArena at ha
    by_cases huv : u = v
    · subst huv
      rw [hv]
      simp
    · simp only [update_of_ne huv] at ha
      exact ha
  | large v n _ =>
    rcases hu with ha | ⟨w, m, hw, h1, h2⟩
    · exact .inl ha
    · unfold Heap.dropLarge at hw
      by_cases hwv : w = v
      · subst hwv
        simp only [update_self] at hw
        cases hw
      · simp only [update_of_ne hwv] at hw
        exact .inr ⟨w, m, hw, h1, h2⟩

theorem Heap.Returned.busy {H' : Heap} (hh : H.Returned b H') (h : H.Busy) : H'.Busy := by
  cases hh with
  | block v k i hv hi hne => exact h.give hv (blockAt_div hi) hne
  | arena v k i _ hi _ => exact h.dropArena (blockAt_div hi)
  | large v n _ => exact fun u j hu => h u j hu

end

end Enix.Memory
