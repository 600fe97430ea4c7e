import Mathlib.Data.List.Chain
import Mathlib.Logic.Function.Basic

/-!
# Doubly linked lists

A store of nodes with a link in each direction. A list is known by two nodes of
its own, `h` before the first element and `t` behind the last one. `IsList k h t
xs` says that the elements between them are `xs`, each once.

* `IsList.congr`: a list depends on no more than its own links.
* `IsList.insert`, `IsList.remove`: the two edits, from what the new links are.
* `IsList.walk_next`, `IsList.walk_prev`: where the links lead, in both directions.
-/
set_option autoImplicit false

namespace Enix.Core

structure Links (N : Type) where
  prev : N → N
  next : N → N

namespace Links
variable {N : Type} {k k' : Links N} {h t e x y z : N} {xs as bs pre post l : List N}

/-- The link from `a` leads to `b`, and the one back from `b` to `a`. -/
def Linked (k : Links N) (a b : N) : Prop := k.next a = b ∧ k.prev b = a

structure IsList (k : Links N) (h t : N) (xs : List N) : Prop where
  chain : List.IsChain k.Linked (h :: (xs ++ [t]))
  nodup : (h :: (xs ++ [t])).Nodup

/-- `e->prev = p` -/
def setPrev [DecidableEq N] (k : Links N) (e p : N) : Links N := { k with prev := Function.update k.prev e p }

/-- `e->next = n` -/
def setNext [DecidableEq N] (k : Links N) (e n : N) : Links N := { k with next := Function.update k.next e n }

/-- The nodes from `e` on, before `stop`, along the links `f`. -/
def path [DecidableEq N] (f : N → N) (stop : N) : (fuel : Nat) → (e : N) → Option (List N)
  | 0, _ => none
  | fuel + 1, e => if e = stop then some [] else (path f stop fuel (f e)).map (e :: ·)

/-- The links the other way round. -/
def swap (k : Links N) : Links N := ⟨k.next, k.prev⟩

/-- `f` leads from `e` through `xs` to `stop`, and not to `stop` before that. -/
def Walk (f : N → N) (stop : N) : N → List N → Prop
  | e, [] => e = stop
  | e, x :: xs => e = x ∧ x ≠ stop ∧ Walk f stop (f x) xs

theorem path_eq [DecidableEq N] {f : N → N} {stop : N} : ∀ {xs : List N} {e : N} {fuel : Nat}, Walk f stop e xs →
    xs.length < fuel → path f stop fuel e = some xs
  | [], e, fuel + 1, hw, _ => if_pos hw
  | x :: xs, e, fuel + 1, ⟨he, hne, hw⟩, hf => by
    rw [path, he, if_neg hne, path_eq hw (Nat.lt_of_succ_lt_succ hf)]
    rfl

/-! ## Chains -/

/-- Where the last node leads and what is before the first do not matter. -/
theorem chain_congr (hc : List.IsChain k.Linked l) (hn : ∀ a ∈ l.dropLast, k'.next a = k.next a)
    (hp : ∀ a ∈ l.tail, k'.prev a = k.prev a) : List.IsChain k'.Linked l := by
  rw [List.isChain_iff_forall₂] at hc ⊢
  rw [List.forall₂_iff_get] at hc ⊢
  refine ⟨hc.1, fun i h₁ h₂ => ?_⟩
  have hab := hc.2 i h₁ h₂
  exact ⟨(hn _ (List.get_mem _ _)).trans hab.1, (hp _ (List.get_mem _ _)).trans hab.2⟩

/-- A node is linked in between two. -/
theorem chain_link (hc : List.IsChain k.Linked (pre ++ x :: z :: post)) (hd : (pre ++ x :: z :: post).Nodup)
    (hxy : k'.Linked x y) (hyz : k'.Linked y z)
    (hn : ∀ a ∈ pre ++ x :: z :: post, a ≠ x → k'.next a = k.next a)
    (hp : ∀ a ∈ pre ++ x :: z :: post, a ≠ z → k'.prev a = k.prev a) :
    List.IsChain k'.Linked (pre ++ x :: y :: z :: post) := by
  rw [List.isChain_append_cons_cons] at hc ⊢
  obtain ⟨hpre, -, hpost⟩ := hc
  rw [List.nodup_append, List.nodup_cons, List.nodup_cons] at hd
  obtain ⟨-, ⟨hx, hz, -⟩, hdis⟩ := hd
  refine ⟨chain_congr hpre ?_ ?_, hxy, List.isChain_cons_cons.2 ⟨hyz, chain_congr hpost ?_ ?_⟩⟩
  · intro a ha
    rw [List.dropLast_concat] at ha
    exact hn a (List.mem_append_left _ ha) (hdis a ha x List.mem_cons_self)
  · intro a ha
    rcases List.mem_append.1 (List.mem_of_mem_tail ha) with hpre' | hax
    · exact hp a (List.mem_append_left _ hpre') (hdis a hpre' z (by simp))
    · rw [List.mem_singleton.1 hax]
      exact hp x (by simp) (fun hc => hx (by simp [hc]))
  · intro a ha
    have hmem := List.dropLast_subset _ ha
    refine hn a (by simp only [List.mem_append, List.mem_cons] at hmem ⊢; exact .inr (.inr hmem)) ?_
    rintro rfl
    exact hx hmem
  · intro a ha
    rw [List.tail_cons] at ha
    refine hp a (by simp [ha]) ?_
    rintro rfl
    exact hz ha

/-- A node is linked out. -/
theorem chain_unlink (hc : List.IsChain k.Linked (pre ++ x :: y :: z :: post))
    (hd : (pre ++ x :: y :: z :: post).Nodup) (hxz : k'.Linked x z)
    (hn : ∀ a ∈ pre ++ x :: z :: post, a ≠ x → k'.next a = k.next a)
    (hp : ∀ a ∈ pre ++ x :: z :: post, a ≠ z → k'.prev a = k.prev a) :
    List.IsChain k'.Linked (pre ++ x :: z :: post) := by
  rw [List.isChain_append_cons_cons, List.isChain_cons_cons] at hc
  rw [List.isChain_append_cons_cons]
  obtain ⟨hpre, -, -, hpost⟩ := hc
  rw [List.nodup_append, List.nodup_cons, List.nodup_cons, List.nodup_cons] at hd
  obtain ⟨-, ⟨hx, -, hz, -⟩, hdis⟩ := hd
  refine ⟨chain_congr hpre ?_ ?_, hxz, chain_congr hpost ?_ ?_⟩
  · intro a ha
    rw [List.dropLast_concat] at ha
    exact hn a (List.mem_append_left _ ha) (hdis a ha x List.mem_cons_self)
  · intro a ha
    rcases List.mem_append.1 (List.mem_of_mem_tail ha) with hpre' | hax
    · exact hp a (List.mem_append_left _ hpre') (hdis a hpre' z (by simp))
    · rw [List.mem_singleton.1 hax]
      exact hp x (by simp) (fun hc => hx (by simp [hc]))
  · intro a ha
    have hmem := List.dropLast_subset _ ha
    refine hn a (by simp only [List.mem_append, List.mem_cons] at hmem ⊢; exact .inr (.inr hmem)) ?_
    rintro rfl
    exact hx (List.mem_cons_of_mem _ hmem)
  · intro a ha
    rw [List.tail_cons] at ha
    refine hp a (by simp [ha]) ?_
    rintro rfl
    exact hz ha

/-! ## Lists -/

/-- The node before `bs` and the first one of `bs`, among all nodes. -/
theorem exists_split (h t : N) (as bs : List N) : ∃ ys y zs, h :: as = ys ++ [y] ∧ bs ++ [t] = bs.headD t :: zs := by
  have hy := (List.dropLast_append_getLast (List.cons_ne_nil h as)).symm
  cases bs with
  | nil => exact ⟨_, _, [], hy, rfl⟩
  | cons b bs => exact ⟨_, _, bs ++ [t], hy, rfl⟩

namespace IsList

theorem nil (hne : h ≠ t) (hl : k.Linked h t) : IsList k h t [] := by
  refine ⟨List.isChain_cons_cons.2 ⟨hl, List.isChain_singleton t⟩, ?_⟩
  simp only [List.nil_append, List.nodup_cons, List.mem_singleton, List.not_mem_nil, not_false_eq_true, List.nodup_nil,
    and_true]
  exact hne

theorem congr (hk : IsList k h t xs) (hn : ∀ a ∈ h :: xs, k'.next a = k.next a)
    (hp : ∀ a ∈ xs ++ [t], k'.prev a = k.prev a) : IsList k' h t xs := by
  refine ⟨chain_congr hk.chain (fun a ha => hn a ?_) fun a ha => hp a ha, hk.nodup⟩
  rwa [← List.cons_append, List.dropLast_concat] at ha

/-- The link from the node before `y` leads to `y`. -/
theorem linked (hk : IsList k h t xs) (pre post : List N) (he : h :: (xs ++ [t]) = pre ++ x :: y :: post) : k.Linked x y := by
  have hc := hk.chain
  rw [he, List.isChain_append_cons_cons] at hc
  exact hc.2.1

/-- The first link. -/
theorem next_head (hk : IsList k h t xs) : k.next h = xs.headD t := by
  cases xs with
  | nil => exact (hk.linked [] [] rfl).1
  | cons a xs => exact (hk.linked [] (xs ++ [t]) rfl).1

/-- A list is empty if the first link leads to its end. -/
theorem next_head_eq (hk : IsList k h t xs) : k.next h = t ↔ xs = [] := by
  rw [hk.next_head]
  cases xs with
  | nil => simp
  | cons a xs =>
    have hd := hk.nodup
    simp only [List.headD_cons, reduceCtorEq, iff_false]
    rintro rfl
    simp at hd

theorem ne_tail (hk : IsList k h t xs) (ha : x ∈ xs) : x ≠ t := by
  rintro rfl
  have hd := hk.nodup
  rw [List.nodup_cons, List.nodup_append] at hd
  exact hd.2.2.2 x ha x (List.mem_singleton_self x) rfl

theorem nodup_mid (hk : IsList k h t xs) : xs.Nodup := by
  have hd := hk.nodup
  rw [List.nodup_cons, List.nodup_append] at hd
  exact hd.2.1

/-- A list is a list in the other direction. -/
theorem swap (hk : IsList k h t xs) : IsList k.swap t h xs.reverse := by
  have hl : t :: (xs.reverse ++ [h]) = (h :: (xs ++ [t])).reverse := by simp
  refine ⟨?_, ?_⟩
  · rw [hl, List.isChain_reverse]
    exact hk.chain.imp fun a b hab => ⟨hab.2, hab.1⟩
  · rw [hl, (List.reverse_perm _).nodup_iff]
    exact hk.nodup

/-- From the first link on, by induction on the list. -/
theorem walk_next (hk : IsList k h t xs) : Walk k.next t (k.next h) xs := by
  have hc := hk.chain
  have ht : ∀ a ∈ xs, a ≠ t := fun a ha => hk.ne_tail ha
  clear hk
  induction xs generalizing h with
  | nil => exact (List.isChain_cons_cons.1 hc).1.1
  | cons x xs ih =>
    obtain ⟨hl, hc⟩ := List.isChain_cons_cons.1 hc
    exact ⟨hl.1, ht x List.mem_cons_self, ih hc fun a ha => ht a (List.mem_cons_of_mem _ ha)⟩

theorem walk_prev (hk : IsList k h t xs) : Walk k.prev h (k.prev t) xs.reverse := hk.swap.walk_next

/-- Back from the first node of `bs`. -/
theorem prev_mem (hk : IsList k h t (as ++ bs)) : k.prev (bs.headD t) ∈ h :: as := by
  obtain ⟨ys, y, zs, hy, hz⟩ := exists_split h t as bs
  have hl : h :: (as ++ bs ++ [t]) = ys ++ y :: bs.headD t :: zs := by
    calc h :: (as ++ bs ++ [t]) = (h :: as) ++ (bs ++ [t]) := by simp
      _ = ys ++ y :: bs.headD t :: zs := by rw [hy, hz, List.append_assoc]; rfl
  rw [(hk.linked ys zs hl).2, hy]
  exact List.mem_append_right _ (List.mem_singleton_self y)

theorem next_mid (hk : IsList k h t (as ++ e :: bs)) : k.next e = bs.headD t := by
  obtain ⟨_, _, zs, _, hz⟩ := exists_split h t as bs
  refine (hk.linked (h :: as) zs ?_).1
  rw [← hz, List.append_assoc]
  rfl

/-- A node is put in before the first one of `bs`. -/
theorem insert (hk : IsList k h t (as ++ bs)) (he : e ∉ h :: (as ++ bs ++ [t]))
    (hpe : k'.Linked (k.prev (bs.headD t)) e) (hez : k'.Linked e (bs.headD t))
    (hn : ∀ a ∈ h :: (as ++ bs ++ [t]), a ≠ k.prev (bs.headD t) → k'.next a = k.next a)
    (hp : ∀ a ∈ h :: (as ++ bs ++ [t]), a ≠ bs.headD t → k'.prev a = k.prev a) : IsList k' h t (as ++ e :: bs) := by
  obtain ⟨ys, y, zs, hy, hz⟩ := exists_split h t as bs
  generalize bs.headD t = z at hpe hez hn hp hz
  have hl : h :: (as ++ bs ++ [t]) = ys ++ y :: z :: zs := by
    calc h :: (as ++ bs ++ [t]) = (h :: as) ++ (bs ++ [t]) := by simp
      _ = ys ++ y :: z :: zs := by rw [hy, hz, List.append_assoc]; rfl
  have hl' : h :: (as ++ e :: bs ++ [t]) = ys ++ y :: e :: z :: zs := by
    calc h :: (as ++ e :: bs ++ [t]) = (h :: as) ++ e :: (bs ++ [t]) := by simp
      _ = ys ++ y :: e :: z :: zs := by rw [hy, hz, List.append_assoc]; rfl
  have hyz := hk.linked ys zs hl
  have hc := hk.chain
  have hd := hk.nodup
  rw [hyz.2] at hpe hn
  rw [hl] at hc hd hn hp he
  refine ⟨?_, ?_⟩
  · rw [hl']
    exact chain_link hc hd hpe hez hn hp
  · rw [hl']
    have hperm : (ys ++ y :: e :: z :: zs).Perm (e :: (ys ++ y :: z :: zs)) := by
      refine List.Perm.trans (List.Perm.append_left ys (List.Perm.swap e y (z :: zs))) ?_
      exact List.perm_middle
    rw [hperm.nodup_iff, List.nodup_cons]
    exact ⟨he, hd⟩

/-- A node is put at the end. -/
theorem append (hk : IsList k h t xs) (he : e ∉ h :: (xs ++ [t])) (hpe : k'.Linked (k.prev t) e) (het : k'.Linked e t)
    (hn : ∀ a ∈ h :: (xs ++ [t]), a ≠ k.prev t → k'.next a = k.next a)
    (hp : ∀ a ∈ h :: (xs ++ [t]), a ≠ t → k'.prev a = k.prev a) : IsList k' h t (xs ++ [e]) := by
  rw [← List.append_nil xs] at hk he hn hp
  exact insert hk he hpe het hn hp

/-- A node is taken out. -/
theorem remove (hk : IsList k h t (as ++ e :: bs)) (hl : k'.Linked (k.prev e) (k.next e))
    (hn : ∀ a ∈ h :: (as ++ bs ++ [t]), a ≠ k.prev e → k'.next a = k.next a)
    (hp : ∀ a ∈ h :: (as ++ bs ++ [t]), a ≠ k.next e → k'.prev a = k.prev a) : IsList k' h t (as ++ bs) := by
  obtain ⟨ys, y, zs, hy, hz⟩ := exists_split h t as bs
  generalize bs.headD t = z at hz
  have hl₁ : h :: (as ++ e :: bs ++ [t]) = ys ++ y :: e :: z :: zs := by
    calc h :: (as ++ e :: bs ++ [t]) = (h :: as) ++ e :: (bs ++ [t]) := by simp
      _ = ys ++ y :: e :: z :: zs := by rw [hy, hz, List.append_assoc]; rfl
  have hl₂ : h :: (as ++ bs ++ [t]) = ys ++ y :: z :: zs := by
    calc h :: (as ++ bs ++ [t]) = (h :: as) ++ (bs ++ [t]) := by simp
      _ = ys ++ y :: z :: zs := by rw [hy, hz, List.append_assoc]; rfl
  have hye := hk.linked ys (z :: zs) hl₁
  have hez : k.Linked e z := hk.linked (ys ++ [y]) zs (by rw [hl₁, List.append_assoc]; rfl)
  have hc := hk.chain
  have hd := hk.nodup
  rw [hye.2, hez.1] at hl
  rw [hl₂, hye.2] at hn
  rw [hl₂, hez.1] at hp
  rw [hl₁] at hc hd
  refine ⟨?_, ?_⟩
  · rw [hl₂]
    exact chain_unlink hc hd hl hn hp
  · rw [hl₂]
    refine hd.sublist (List.Sublist.append_left ?_ ys)
    exact (List.sublist_cons_self e (z :: zs)).cons_cons y

end IsList

end Links

end Enix.Core
