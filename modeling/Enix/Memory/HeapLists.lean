import Enix.Core.Dlist
import Enix.Memory.HeapBytes

/-!
# The lists of the heap

A node is two words, at an address that is 4 modulo 8: the words of two nodes
are apart. `ListAt s l xs` says that the list at `l` holds the nodes `xs`.

* `listAppend_spec`, `listRemove_spec`, `listPop_spec`: the edits change words of
  the list's nodes only.
* `listEmpty_spec`, `elemFind_spec`: what the two questions return.
-/
set_option autoImplicit false

namespace Enix.Memory
open Enix.Core Enix.Kernel Function

/-- `prev` is the first word of a node, `next` the second. -/
def Vm.links (s : Vm) : Links Nat := ⟨s.wordAt, fun a => s.wordAt (a + 4)⟩

/-- A node is in a page of the process. -/
structure Node (s : Vm) (a : Nat) : Prop where
  own : s.own (a / 4096)
  mod : a % 8 = 4
  fits : a % 4096 ≤ 4084

/-- The bytes of the nodes in `N`. -/
def onNodes (N : Nat → Prop) (b : Nat) : Prop := ∃ n, N n ∧ n ≤ b ∧ b < n + 8

/-- The nodes of a list, its ends among them. -/
def listNodes (l : Nat) (xs : List Nat) : List Nat := l :: (xs ++ [l + 8])

structure ListAt (s : Vm) (l : Nat) (xs : List Nat) : Prop where
  list : s.links.IsList l (l + 8) xs
  node : ∀ n ∈ listNodes l xs, Node s n

section
variable {L : Spaces} {s s₁ s' : Vm} {t : TaskStruct} {A N N' : Nat → Prop} {a b e l n p x : Nat} {xs as bs : List Nat}

/-! ## Nodes -/

theorem wordAt_congr (h : ∀ i, i < 4 → s'.byteAt (a + i) = s.byteAt (a + i)) : s'.wordAt a = s.wordAt a := le32_congr h

theorem Node.own_next (h : Node s a) : s.own ((a + 4) / 4096) := by
  have := h.fits
  rw [show (a + 4) / 4096 = a / 4096 by omega]
  exact h.own

theorem Node.aligned (h : Node s a) : a % 4 = 0 ∧ (a + 4) % 4 = 0 := by
  have := h.mod
  omega

theorem Node.lt (h : Node s a) (hr : Running L s t) : a < 4294967296 := by
  have := h.own.lt hr
  omega

theorem onNodes_mono (h : ∀ n, N n → N' n) : onNodes N b → onNodes N' b := by
  rintro ⟨n, hn, h1, h2⟩
  exact ⟨n, h n hn, h1, h2⟩

theorem Pokes.node (h : Pokes L s s' A) (hr : Running L s t) (ha : Node s a) : Node s' a :=
  ⟨(h.own hr).2 ha.own, ha.mod, ha.fits⟩

/-- Both links of a node that is not among the changed ones. -/
theorem Pokes.links (h : Pokes L s s' A) (ha : Node s a) (hA : ∀ b, a ≤ b → b < a + 8 → ¬ A b) :
    s'.links.prev a = s.links.prev a ∧ s'.links.next a = s.links.next a := by
  refine ⟨h.word ha.own ha.aligned.1 fun i hi => ?_, h.word ha.own_next ha.aligned.2 fun i hi => ?_⟩
  · exact hA (a + i) (by omega) (by omega)
  · exact hA (a + 4 + i) (by omega) (by omega)

/-- The bytes of other nodes. -/
theorem not_onNodes (ha : a % 8 = 4) (hN : ∀ n, N n → n % 8 = 4) (hn : ¬ N a) (h1 : a ≤ b) (h2 : b < a + 8) :
    ¬ onNodes N b := by
  rintro ⟨n, hn', h3, h4⟩
  have := hN n hn'
  obtain rfl : n = a := by omega
  exact hn hn'

/-- `elem->next = b`. -/
theorem storeNext_spec (h : Running L s t) (ha : Node s a) (hb : b < 4294967296) :
    ∃ s', storeWord (a + 4) b s = .ok ((), s') ∧ Pokes L s s' (onNodes (· = a)) ∧ s'.links.next a = b ∧
      (∀ x, Node s x → x ≠ a → s'.links.next x = s.links.next x) ∧ ∀ x, Node s x → s'.links.prev x = s.links.prev x := by
  obtain ⟨s', hrun, hp, hw⟩ := storeWord_spec h ha.own_next ha.aligned.2 hb
  have hx : ∀ x, Node s x → ∀ i, i < 4 → ¬ (a + 4 ≤ x + i ∧ x + i < a + 4 + 4) := fun x hx i hi => by
    have := hx.mod
    have := ha.mod
    omega
  refine ⟨s', hrun, hp.mono fun c hc => ⟨a, rfl, by omega, by omega⟩, hw, fun x hx hne => ?_, fun x hx' => ?_⟩
  · refine hp.word hx.own_next hx.aligned.2 fun i hi => ?_
    have := hx.mod
    have := ha.mod
    omega
  · exact hp.word hx'.own hx'.aligned.1 (hx x hx')

/-- `elem->prev = b`. -/
theorem storePrev_spec (h : Running L s t) (ha : Node s a) (hb : b < 4294967296) :
    ∃ s', storeWord a b s = .ok ((), s') ∧ Pokes L s s' (onNodes (· = a)) ∧ s'.links.prev a = b ∧
      (∀ x, Node s x → x ≠ a → s'.links.prev x = s.links.prev x) ∧ ∀ x, Node s x → s'.links.next x = s.links.next x := by
  obtain ⟨s', hrun, hp, hw⟩ := storeWord_spec h ha.own ha.aligned.1 hb
  refine ⟨s', hrun, hp.mono fun c hc => ⟨a, rfl, by omega, by omega⟩, hw, fun x hx hne => ?_, fun x hx => ?_⟩
  · refine hp.word hx.own hx.aligned.1 fun i hi => ?_
    have := hx.mod
    have := ha.mod
    omega
  · refine hp.word hx.own_next hx.aligned.2 fun i hi => ?_
    have := hx.mod
    have := ha.mod
    omega

/-- `elem->prev` and `elem->next`. -/
theorem loadLinks_spec (ha : Node s a) :
    loadWord a s = .ok (s.links.prev a, s) ∧ loadWord (a + 4) s = .ok (s.links.next a, s) :=
  ⟨loadWord_spec ha.own ha.aligned.1, loadWord_spec ha.own_next ha.aligned.2⟩

/-! ## Lists -/

/-- A list depends on the bytes of its nodes. -/
theorem ListAt.congr (h : ListAt s l xs) (ho : ∀ n ∈ listNodes l xs, s'.own (n / 4096))
    (hb : ∀ n ∈ listNodes l xs, ∀ a, n ≤ a → a < n + 8 → s'.byteAt a = s.byteAt a) : ListAt s' l xs where
  list := by
    refine h.list.congr (fun n hn => ?_) fun n hn => ?_
    · have hmem : n ∈ listNodes l xs := by
        unfold listNodes
        rw [← List.cons_append]
        exact List.mem_append_left _ hn
      exact wordAt_congr fun i hi => hb n hmem _ (by omega) (by omega)
    · exact wordAt_congr fun i hi => hb n (List.mem_cons_of_mem _ hn) _ (by omega) (by omega)
  node n hn := ⟨ho n hn, (h.node n hn).mod, (h.node n hn).fits⟩

/-- Stores elsewhere. -/
theorem ListAt.pokes (hl : ListAt s l xs) (hr : Running L s t) (h : Pokes L s s' A)
    (hA : ∀ n ∈ listNodes l xs, ∀ b, n ≤ b → b < n + 8 → ¬ A b) : ListAt s' l xs :=
  hl.congr (fun n hn => (h.own hr).2 (hl.node n hn).own) fun n hn b h1 h2 => by
    have hk := hl.node n hn
    have hm := hk.mod
    have hf := hk.fits
    refine h.byte b ?_ (hA n hn b h1 h2)
    rw [show b / 4096 = n / 4096 by omega]
    exact hk.own

/-- `list_insert_before`, for a node that is in no list. -/
theorem listInsertBefore_spec (h : Running L s t) (hb : Node s b) (he : Node s e) (hp : Node s p)
    (hbp : s.links.prev b = p) (heb : e ≠ b) (hep : e ≠ p) :
    ∃ s', listInsertBefore b e s = .ok ((), s') ∧ Pokes L s s' (onNodes fun n => n = p ∨ n = e ∨ n = b) ∧
      s'.links.Linked p e ∧ s'.links.Linked e b ∧
      (∀ x, Node s x → x ≠ p → x ≠ e → s'.links.next x = s.links.next x) ∧
      ∀ x, Node s x → x ≠ e → x ≠ b → s'.links.prev x = s.links.prev x := by
  obtain ⟨s₁, hrun₁, hp₁, hself₁, hn₁, hv₁⟩ := storeNext_spec h hp (he.lt h)
  have h₁ := hp₁.running h
  have hk₁ : ∀ x, Node s x → Node s₁ x := fun x hx => hp₁.node h hx
  obtain ⟨s₂, hrun₂, hp₂, hself₂, hv₂, hn₂⟩ := storePrev_spec h₁ (hk₁ e he) (hp.lt h)
  have h₂ := hp₂.running h₁
  have hk₂ : ∀ x, Node s x → Node s₂ x := fun x hx => hp₂.node h₁ (hk₁ x hx)
  obtain ⟨s₃, hrun₃, hp₃, hself₃, hn₃, hv₃⟩ := storeNext_spec h₂ (hk₂ e he) (hb.lt h)
  have h₃ := hp₃.running h₂
  have hk₃ : ∀ x, Node s x → Node s₃ x := fun x hx => hp₃.node h₂ (hk₂ x hx)
  obtain ⟨s₄, hrun₄, hp₄, hself₄, hv₄, hn₄⟩ := storePrev_spec h₃ (hk₃ b hb) (he.lt h)
  have hprev : s₁.links.prev b = p := by rw [hv₁ b hb, hbp]
  refine ⟨s₄, ?_, ?_, ⟨?_, ?_⟩, ⟨?_, hself₄⟩, fun x hx hxp hxe => ?_, fun x hx hxe hxb => ?_⟩
  · unfold listInsertBefore
    rw [bind_ok (loadLinks_spec hb).1, hbp, bind_ok hrun₁, bind_ok (loadLinks_spec (hk₁ b hb)).1, hprev,
      bind_ok hrun₂, bind_ok hrun₃]
    exact hrun₄
  · have hsub : ∀ {c : Nat}, (c = p ∨ c = e ∨ c = b) → ∀ x, onNodes (· = c) x → onNodes (fun n => n = p ∨ n = e ∨ n = b) x :=
      fun hc x => onNodes_mono fun n hn => hn ▸ hc
    have hpe := (hp₁.mono (hsub (.inl rfl))).trans h (hp₂.mono (hsub (.inr (.inl rfl))))
    have hee := (hp₃.mono (hsub (.inr (.inl rfl)))).trans h₂ (hp₄.mono (hsub (.inr (.inr rfl))))
    exact hpe.trans h hee
  · rw [hn₄ p (hk₃ p hp), hn₃ p (hk₂ p hp) (Ne.symm hep), hn₂ p (hk₁ p hp), hself₁]
  · rw [hv₄ e (hk₃ e he) heb, hv₃ e (hk₂ e he), hself₂]
  · rw [hn₄ e (hk₃ e he), hself₃]
  · rw [hn₄ x (hk₃ x hx), hn₃ x (hk₂ x hx) hxe, hn₂ x (hk₁ x hx), hn₁ x hx hxp]
  · rw [hv₄ x (hk₃ x hx) hxb, hv₃ x (hk₂ x hx), hv₂ x (hk₁ x hx) hxe, hv₁ x hx]

/-- `list_append`. -/
theorem listAppend_spec (h : Running L s t) (hl : ListAt s l xs) (he : Node s e) (hne : e ∉ listNodes l xs) :
    ∃ s', listAppend l e s = .ok ((), s') ∧ Pokes L s s' (onNodes fun n => n ∈ listNodes l xs ∨ n = e) ∧
      ListAt s' l (xs ++ [e]) := by
  obtain ⟨ys, y, hy⟩ : ∃ ys y, l :: xs = ys ++ [y] :=
    ⟨_, _, (List.dropLast_append_getLast (List.cons_ne_nil l xs)).symm⟩
  have hnodes : listNodes l xs = ys ++ y :: [l + 8] := by
    unfold listNodes
    rw [← List.cons_append, hy, List.append_assoc]
    rfl
  have hyt := hl.list.linked ys [] hnodes
  have hmy : y ∈ listNodes l xs := by rw [hnodes]; simp
  have hmt : l + 8 ∈ listNodes l xs := by rw [hnodes]; simp
  obtain ⟨s', hrun, hp, hye, het, hn, hv⟩ := listInsertBefore_spec h (hl.node _ hmt) he (hl.node y hmy) hyt.2
    (fun hc => hne (hc ▸ hmt)) (fun hc => hne (hc ▸ hmy))
  refine ⟨s', hrun, hp.mono fun b => onNodes_mono fun n hn => ?_, ?_, ?_⟩
  · rcases hn with rfl | rfl | rfl
    · exact .inl hmy
    · exact .inr rfl
    · exact .inl hmt
  · refine hl.list.append hne (by rw [hyt.2]; exact hye) het (fun a ha hne' => ?_) fun a ha hne' => ?_
    · rw [hyt.2] at hne'
      exact hn a (hl.node a ha) hne' (fun hc => hne (hc ▸ ha))
    · exact hv a (hl.node a ha) (fun hc => hne (hc ▸ ha)) hne'
  · intro n hn'
    refine hp.node h ?_
    unfold listNodes at hn'
    simp only [List.mem_cons, List.mem_append, List.not_mem_nil, or_false] at hn'
    have hmem : n ∈ listNodes l xs ∨ n = e := by
      unfold listNodes
      simp only [List.mem_cons, List.mem_append, List.not_mem_nil, or_false]
      tauto
    rcases hmem with hmem | rfl
    · exact hl.node n hmem
    · exact he

/-- `list_remove`. -/
theorem listRemove_spec (h : Running L s t) (hl : ListAt s l (as ++ e :: bs)) :
    ∃ s', listRemove e s = .ok ((), s') ∧ Pokes L s s' (onNodes (· ∈ listNodes l (as ++ bs))) ∧
      ListAt s' l (as ++ bs) := by
  obtain ⟨ys, y, hy⟩ : ∃ ys y, l :: as = ys ++ [y] :=
    ⟨_, _, (List.dropLast_append_getLast (List.cons_ne_nil l as)).symm⟩
  obtain ⟨z, zs, hz⟩ : ∃ z zs, bs ++ [l + 8] = z :: zs := by
    cases bs with
    | nil => exact ⟨l + 8, [], rfl⟩
    | cons b bs => exact ⟨b, bs ++ [l + 8], rfl⟩
  have hl₁ : listNodes l (as ++ e :: bs) = ys ++ y :: e :: z :: zs := by
    calc listNodes l (as ++ e :: bs) = (l :: as) ++ e :: (bs ++ [l + 8]) := by simp [listNodes]
      _ = ys ++ y :: e :: z :: zs := by rw [hy, hz, List.append_assoc]; rfl
  have hl₂ : listNodes l (as ++ bs) = ys ++ y :: z :: zs := by
    calc listNodes l (as ++ bs) = (l :: as) ++ (bs ++ [l + 8]) := by simp [listNodes]
      _ = ys ++ y :: z :: zs := by rw [hy, hz, List.append_assoc]; rfl
  have hye := hl.list.linked ys (z :: zs) hl₁
  have hez := hl.list.linked (ys ++ [y]) zs (hl₁.trans (by rw [List.append_assoc]; rfl))
  have hsub : ∀ n, n ∈ listNodes l (as ++ bs) → n ∈ listNodes l (as ++ e :: bs) := fun n hn => by
    rw [hl₂] at hn
    rw [hl₁]
    simp only [List.mem_append, List.mem_cons] at hn ⊢
    tauto
  have hme : e ∈ listNodes l (as ++ e :: bs) := by rw [hl₁]; simp
  have hmy : y ∈ listNodes l (as ++ bs) := by rw [hl₂]; simp
  have hmz : z ∈ listNodes l (as ++ bs) := by rw [hl₂]; simp
  have hke := hl.node e hme
  have hky := hl.node y (hsub y hmy)
  have hkz := hl.node z (hsub z hmz)
  have hd := hl.list.nodup
  have hnot : e ≠ y ∧ e ≠ z := by
    have hd' : (ys ++ y :: e :: z :: zs).Nodup := hl₁ ▸ hd
    rw [List.nodup_append, List.nodup_cons, List.nodup_cons] at hd'
    obtain ⟨-, ⟨hy', he', -⟩, -⟩ := hd'
    exact ⟨fun hc => hy' (by simp [hc]), fun hc => he' (by simp [hc])⟩
  obtain ⟨s₁, hrun₁, hp₁, hself₁, hn₁, hv₁⟩ := storeNext_spec h hky (hkz.lt h)
  have h₁ := hp₁.running h
  obtain ⟨s', hrun', hp', hself', hv', hn'⟩ := storePrev_spec h₁ (hp₁.node h hkz) (hky.lt h)
  have hp : Pokes L s s' (onNodes (· ∈ listNodes l (as ++ bs))) := by
    refine (hp₁.mono fun b => onNodes_mono fun n hn => ?_).trans h (hp'.mono fun b => onNodes_mono fun n hn => ?_)
    · rw [hn]
      exact hmy
    · rw [hn]
      exact hmz
  refine ⟨s', ?_, hp, ?_, fun n hn => hp.node h (hl.node n (hsub n hn))⟩
  · unfold listRemove
    have hk₁ := hp₁.node h hke
    rw [bind_ok (loadLinks_spec hke).1, bind_ok (loadLinks_spec hke).2, hye.2, hez.1, bind_ok hrun₁,
      bind_ok (loadLinks_spec hk₁).2, bind_ok (loadLinks_spec hk₁).1, hn₁ e hke hnot.1, hv₁ e hke, hye.2, hez.1]
    exact hrun'
  · refine hl.list.remove ?_ (fun a ha hne => ?_) fun a ha hne => ?_
    · rw [hye.2, hez.1]
      refine ⟨?_, hself'⟩
      rw [hn' y (hp₁.node h hky), hself₁]
    · have hka := hl.node a (hsub a ha)
      rw [hye.2] at hne
      rw [hn' a (hp₁.node h hka), hn₁ a hka hne]
    · have hka := hl.node a (hsub a ha)
      rw [hez.1] at hne
      rw [hv' a (hp₁.node h hka) hne, hv₁ a hka]

/-- `list_pop`, of a list that is not empty. -/
theorem listPop_spec (h : Running L s t) (hl : ListAt s l (e :: bs)) :
    ∃ s', listPop l s = .ok (e, s') ∧ Pokes L s s' (onNodes (· ∈ listNodes l bs)) ∧ ListAt s' l bs := by
  have hmid : ListAt s l ([] ++ e :: bs) := hl
  obtain ⟨s', hrun, hp, hl'⟩ := listRemove_spec h hmid
  have hhead := hl.list.next_head
  refine ⟨s', ?_, hp, hl'⟩
  unfold listPop
  rw [bind_ok (loadLinks_spec (hl.node l List.mem_cons_self)).2, hhead, List.headD_cons, bind_ok hrun]
  rfl

/-- `list_empty`. -/
theorem listEmpty_spec (hl : ListAt s l xs) : listEmpty l s = .ok (decide (xs = []), s) := by
  unfold listEmpty
  rw [bind_ok (loadLinks_spec (hl.node l List.mem_cons_self)).2]
  simp only [hl.list.next_head_eq]
  rfl

/-- A walk from one node behind the other. -/
theorem elemFindLoop_spec (e : Nat) : ∀ xs as fuel, ListAt s l (as ++ xs) → xs.length < fuel →
    elemFindLoop (l + 8) e fuel (xs.headD (l + 8)) s = .ok (decide (e ∈ xs), s) := by
  intro xs
  induction xs with
  | nil =>
    intro as fuel _ hf
    obtain ⟨fuel, rfl⟩ := Nat.exists_eq_succ_of_ne_zero (by omega : fuel ≠ 0)
    unfold elemFindLoop
    simp
  | cons x xs ih =>
    intro as fuel hl hf
    obtain ⟨fuel, rfl⟩ := Nat.exists_eq_succ_of_ne_zero (by omega : fuel ≠ 0)
    have hx : x ∈ listNodes l (as ++ x :: xs) := by simp [listNodes]
    have hend : ¬ (x = l + 8 ∨ x = 0) := by
      have hm := (hl.node x hx).mod
      have ht := hl.list.ne_tail (x := x) (by simp)
      omega
    unfold elemFindLoop
    rw [List.headD_cons, if_neg hend]
    by_cases hxe : x = e
    · rw [if_pos hxe, hxe]
      simp
    · rw [if_neg hxe, bind_ok (loadLinks_spec (hl.node x hx)).2]
      have hnext : s.links.next x = xs.headD (l + 8) := by
        cases xs with
        | nil => exact (hl.list.linked (l :: as) [] (by simp)).1
        | cons y ys => exact (hl.list.linked (l :: as) (ys ++ [l + 8]) (by simp)).1
      have hmem : decide (e ∈ x :: xs) = decide (e ∈ xs) := by
        refine decide_eq_decide.2 ?_
        rw [List.mem_cons]
        exact or_iff_right (Ne.symm hxe)
      rw [hnext, hmem]
      refine ih (as ++ [x]) fuel ?_ (by simp only [List.length_cons] at hf; omega)
      rwa [List.append_assoc, List.singleton_append]

/-- `elem_find`. -/
theorem elemFind_spec (h : Running L s t) (hl : ListAt s l xs) (e : Nat) : elemFind l e s = .ok (decide (e ∈ xs), s) := by
  have hlen : xs.length + 2 ≤ 4294967296 := by
    have hsub : listNodes l xs ⊆ List.range 4294967296 := fun n hn => List.mem_range.2 ((hl.node n hn).lt h)
    have hle := (hl.list.nodup.subperm hsub).length_le
    simp only [List.length_cons, List.length_append, List.length_nil, List.length_range] at hle
    omega
  unfold elemFind
  rw [bind_ok (loadLinks_spec (hl.node l List.mem_cons_self)).2, hl.list.next_head]
  exact elemFindLoop_spec e xs [] _ hl (by omega)

end

end Enix.Memory
