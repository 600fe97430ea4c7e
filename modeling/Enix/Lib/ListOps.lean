import Enix.Core.Dlist
import Mathlib.Data.Fintype.Card

/-!
# Lists of tags (`lib/list.c`)

The nodes of all lists stand in one store. A list is known by its address, where its
head is; `list_remove` is not told of which list it takes the node.

* `Refines.step`: a call does to one sequence what its name says, and the links of the
  other lists stay.
* `elemFindLoop_eq`, `listTraversalLoop_eq`, `listLenLoop_eq`: the loops along a list.
* `built_refines`: any calls, in any order, from any store.
-/
set_option autoImplicit false

namespace Enix.Lib
open Enix.Core Enix.Core.Links Function

/-- The address of a node; 0 is NULL. -/
abbrev Elem := BitVec 32

/-- `&plist->head`, mirrors src/lib/list.h:23-30. -/
def headOf (plist : Elem) : Elem := plist

/-- `&plist->tail`, mirrors src/lib/list.h:23-30: behind the two pointers of the head. -/
def tailOf (plist : Elem) : Elem := plist + 8

/-! ## The calls -/

/-- mirrors src/lib/list.c:9-15 (`list_init`) -/
def listInit (k : Links Elem) (plist : Elem) : Links Elem :=
  let k := k.setPrev (headOf plist) 0
  let k := k.setNext (headOf plist) (tailOf plist)
  let k := k.setPrev (tailOf plist) (headOf plist)
  k.setNext (tailOf plist) 0

/-- mirrors src/lib/list.c:25-38 (`list_insert_before`) -/
def listInsertBefore (k : Links Elem) (before elem : Elem) : Links Elem :=
  let k := k.setNext (k.prev before) elem
  let k := k.setPrev elem (k.prev before)
  let k := k.setNext elem before
  k.setPrev before elem

/-- mirrors src/lib/list.c:46-49 (`list_push`) -/
def listPush (k : Links Elem) (plist elem : Elem) : Links Elem := listInsertBefore k (k.next (headOf plist)) elem

/-- mirrors src/lib/list.c:57-60 (`list_append`) -/
def listAppend (k : Links Elem) (plist elem : Elem) : Links Elem := listInsertBefore k (tailOf plist) elem

/-- mirrors src/lib/list.c:67-75 (`list_remove`) -/
def listRemove (k : Links Elem) (pelem : Elem) : Links Elem :=
  let k := k.setNext (k.prev pelem) (k.next pelem)
  k.setPrev (k.next pelem) (k.prev pelem)

/-- mirrors src/lib/list.c:83-88 (`list_pop`) -/
def listPop (k : Links Elem) (plist : Elem) : Elem × Links Elem :=
  let elem := k.next (headOf plist)
  (elem, listRemove k elem)

/-- mirrors src/lib/list.c:157-160 (`list_empty`) -/
def listEmpty (k : Links Elem) (plist : Elem) : Bool := k.next (headOf plist) = tailOf plist

/-- mirrors src/lib/list.c:101-107 -/
def elemFindLoop (k : Links Elem) (tail objElem : Elem) : (fuel : Nat) → (elem : Elem) → Option Bool
  | 0, _ => none
  | fuel + 1, elem =>
    if elem ≠ tail ∧ elem ≠ 0 then
      if elem = objElem then some true else elemFindLoop k tail objElem fuel (k.next elem)
    else some false

/-- `none`: the loop has not ended after `fuel` nodes.
mirrors src/lib/list.c:98-108 (`elem_find`) -/
def elemFind (k : Links Elem) (fuel : Nat) (plist objElem : Elem) : Option Bool :=
  elemFindLoop k (tailOf plist) objElem fuel (k.next (headOf plist))

/-- The callback may change `σ`, not the links.
mirrors src/lib/list.c:123-129 -/
def listTraversalLoop {σ : Type} (k : Links Elem) (tail : Elem) (func : Elem → BitVec 32 → σ → Bool × σ) (arg : BitVec 32) :
    (fuel : Nat) → (elem : Elem) → (s : σ) → Option (Elem × σ)
  | 0, _, _ => none
  | fuel + 1, elem, s =>
    if elem ≠ tail then
      if (func elem arg s).1 then some (elem, (func elem arg s).2)
      else listTraversalLoop k tail func arg fuel (k.next elem) (func elem arg s).2
    else some (0, s)

/-- mirrors src/lib/list.c:118-130 (`list_traversal`) -/
def listTraversal {σ : Type} (k : Links Elem) (fuel : Nat) (plist : Elem) (func : Elem → BitVec 32 → σ → Bool × σ)
    (arg : BitVec 32) (s : σ) : Option (Elem × σ) :=
  if listEmpty k plist then some (0, s) else listTraversalLoop k (tailOf plist) func arg fuel (k.next (headOf plist)) s

/-- mirrors src/lib/list.c:142-147 -/
def listLenLoop (k : Links Elem) (tail : Elem) : (fuel : Nat) → (elem : Elem) → (length : BitVec 32) → Option (BitVec 32)
  | 0, _, _ => none
  | fuel + 1, elem, length =>
    if elem ≠ tail then listLenLoop k tail fuel (k.next elem) (length + 1) else some length

/-- mirrors src/lib/list.c:138-148 (`list_len`) -/
def listLen (k : Links Elem) (fuel : Nat) (plist : Elem) : Option (BitVec 32) :=
  listLenLoop k (tailOf plist) fuel (k.next (headOf plist)) 0

/-- The nodes from the head to the tail. -/
def forward (k : Links Elem) (fuel : Nat) (plist : Elem) : Option (List Elem) :=
  path k.next (tailOf plist) fuel (k.next (headOf plist))

/-- The nodes from the tail to the head. -/
def backward (k : Links Elem) (fuel : Nat) (plist : Elem) : Option (List Elem) :=
  path k.prev (headOf plist) fuel (k.prev (tailOf plist))

inductive Op where
  | init (plist : Elem)
  | push (plist elem : Elem)
  | append (plist elem : Elem)
  | insertBefore (before elem : Elem)
  | remove (pelem : Elem)
  | pop (plist : Elem)

def Op.exec (k : Links Elem) : Op → Links Elem
  | init plist => listInit k plist
  | push plist elem => listPush k plist elem
  | append plist elem => listAppend k plist elem
  | insertBefore before elem => listInsertBefore k before elem
  | remove pelem => listRemove k pelem
  | pop plist => (listPop k plist).2

/-! ## Sequences -/

/-- The lists there are, and what is on each. -/
abbrev Lists := Elem → Option (List Elem)

/-- The elements of a list, and the two nodes it has of its own. -/
def nodes (plist : Elem) (xs : List Elem) : List Elem := headOf plist :: (xs ++ [tailOf plist])

/-- `e` is on none of the lists, `p` apart. -/
def Off (m : Lists) (p e : Elem) : Prop := ∀ q ys, q ≠ p → m q = some ys → e ∉ nodes q ys

/-- A node that is on no list. -/
def Free (m : Lists) (e : Elem) : Prop := e ≠ 0 ∧ ∀ q ys, m q = some ys → e ∉ nodes q ys

/-- What a call is for. An element is on no list before it is put on one, a node is taken from a list it is on, and
only the lists there are are used. A list may be made anew. -/
inductive Acts (m : Lists) : Op → Lists → Prop
  | init (p : Elem) (hh : Off m p (headOf p)) (ht : Off m p (tailOf p)) : Acts m (.init p) (update m p (some []))
  | push (p e : Elem) (xs : List Elem) (hp : m p = some xs) (he : Free m e) :
    Acts m (.push p e) (update m p (some (e :: xs)))
  | append (p e : Elem) (xs : List Elem) (hp : m p = some xs) (he : Free m e) :
    Acts m (.append p e) (update m p (some (xs ++ [e])))
  | insertBefore (p e : Elem) (as bs : List Elem) (hp : m p = some (as ++ bs)) (he : Free m e) :
    Acts m (.insertBefore (bs.headD (tailOf p)) e) (update m p (some (as ++ e :: bs)))
  | remove (p e : Elem) (as bs : List Elem) (hp : m p = some (as ++ e :: bs)) :
    Acts m (.remove e) (update m p (some (as ++ bs)))
  | pop (p e : Elem) (xs : List Elem) (hp : m p = some (e :: xs)) : Acts m (.pop p) (update m p (some xs))

/-- What calls have made of the store `k₀`. -/
inductive Built (k₀ : Links Elem) : Links Elem → Lists → Prop
  | start : Built k₀ k₀ fun _ => none
  | step {k : Links Elem} {m m' : Lists} {op : Op} (hb : Built k₀ k m) (ha : Acts m op m') : Built k₀ (op.exec k) m'

/-- The first element for which the callback returns true; it is called for those before it. -/
def firstMatch {σ : Type} (func : Elem → BitVec 32 → σ → Bool × σ) (arg : BitVec 32) : List Elem → σ → Elem × σ
  | [], s => (0, s)
  | e :: es, s => if (func e arg s).1 then (e, (func e arg s).2) else firstMatch func arg es (func e arg s).2

/-- No two lists share a node. -/
structure Refines (k : Links Elem) (m : Lists) : Prop where
  isList : ∀ p xs, m p = some xs → IsList k (headOf p) (tailOf p) xs
  apart : ∀ p q xs ys, p ≠ q → m p = some xs → m q = some ys → ∀ a ∈ nodes p xs, a ∉ nodes q ys
  nonnull : ∀ p xs, m p = some xs → 0 ∉ xs

section
variable {k k' k₀ : Links Elem} {m m' : Lists} {op : Op} {p q e a t : Elem} {xs ys as bs : List Elem} {fuel : Nat}

theorem head_ne_tail (p : Elem) : headOf p ≠ tailOf p := by
  unfold headOf tailOf
  bv_omega

/-! ## One call -/

/-- One list becomes `xs`; what is on another list keeps its links. -/
theorem Refines.update (h : Refines k m) (hk : IsList k' (headOf p) (tailOf p) xs) (h0 : 0 ∉ xs)
    (hoff : ∀ a ∈ nodes p xs, Off m p a)
    (hkeep : ∀ a, (∀ q ys, q ≠ p → m q = some ys → a ∈ nodes q ys → k'.next a = k.next a ∧ k'.prev a = k.prev a)) :
    Refines k' (update m p (some xs)) where
  isList q ys hq := by
    by_cases hqp : q = p
    · subst hqp
      rw [update_self, Option.some.injEq] at hq
      rw [← hq]
      exact hk
    · rw [update_of_ne hqp] at hq
      refine (h.isList q ys hq).congr (fun a ha => (hkeep a q ys hqp hq ?_).1) fun a ha => (hkeep a q ys hqp hq ?_).2
      · exact List.mem_of_mem_dropLast (by rw [nodes, ← List.cons_append, List.dropLast_concat]; exact ha)
      · exact List.mem_cons_of_mem _ ha
  apart q r ys zs hqr hq hr a ha hb := by
    by_cases hqp : q = p
    · subst hqp
      rw [update_self, Option.some.injEq] at hq
      rw [update_of_ne (Ne.symm hqr)] at hr
      rw [← hq] at ha
      exact hoff a ha r zs (Ne.symm hqr) hr hb
    · rw [update_of_ne hqp] at hq
      by_cases hrp : r = p
      · subst hrp
        rw [update_self, Option.some.injEq] at hr
        rw [← hr] at hb
        exact hoff a hb q ys hqp hq ha
      · rw [update_of_ne hrp] at hr
        exact h.apart q r ys zs hqr hq hr a ha hb
  nonnull q ys hq := by
    by_cases hqp : q = p
    · subst hqp
      rw [update_self, Option.some.injEq] at hq
      rw [← hq]
      exact h0
    · rw [update_of_ne hqp] at hq
      exact h.nonnull q ys hq

/-- A node of one list is on no other one. -/
theorem Refines.off (h : Refines k m) (hp : m p = some xs) (ha : a ∈ nodes p xs) : Off m p a := fun q ys hqp hq =>
  h.apart p q xs ys (Ne.symm hqp) hp hq a ha

theorem Refines.init (h : Refines k m) (hh : Off m p (headOf p)) (ht : Off m p (tailOf p)) :
    Refines (listInit k p) (Function.update m p (some [])) := by
  have hne := head_ne_tail p
  have hnext : (listInit k p).next = Function.update (Function.update k.next (headOf p) (tailOf p)) (tailOf p) 0 := rfl
  have hprev : (listInit k p).prev = Function.update (Function.update k.prev (headOf p) 0) (tailOf p) (headOf p) := rfl
  refine h.update (IsList.nil hne ⟨?_, ?_⟩) List.not_mem_nil ?_ ?_
  · rw [hnext, update_of_ne hne, update_self]
  · rw [hprev, update_self]
  · intro a ha
    rcases List.mem_cons.1 ha with rfl | ha
    · exact hh
    · rw [List.mem_singleton.1 ha]
      exact ht
  · intro a q ys hqp hq ha
    have h1 : a ≠ headOf p := fun hc => hh q ys hqp hq (hc ▸ ha)
    have h2 : a ≠ tailOf p := fun hc => ht q ys hqp hq (hc ▸ ha)
    rw [hnext, hprev, update_of_ne h2, update_of_ne h1, update_of_ne h2, update_of_ne h1]
    exact ⟨rfl, rfl⟩

/-- A node that is on no list is put before the first one of `bs`. -/
theorem Refines.insert (h : Refines k m) (as bs : List Elem) (hp : m p = some (as ++ bs)) (he : Free m e) :
    Refines (listInsertBefore k (bs.headD (tailOf p)) e) (Function.update m p (some (as ++ e :: bs))) := by
  have hk := h.isList p _ hp
  have hfree := he.2 p _ hp
  have hpm := hk.prev_mem
  have hbm : bs.headD (tailOf p) ∈ nodes p (as ++ bs) := by
    unfold nodes
    cases bs with
    | nil => simp
    | cons b bs => simp
  have hpm' : k.prev (bs.headD (tailOf p)) ∈ nodes p (as ++ bs) := by
    unfold nodes
    rw [List.append_assoc, ← List.cons_append]
    exact List.mem_append_left _ hpm
  have hsub : ∀ a ∈ nodes p (as ++ e :: bs), a = e ∨ a ∈ nodes p (as ++ bs) := by
    intro a ha
    unfold nodes at ha ⊢
    simp only [List.mem_cons, List.mem_append] at ha ⊢
    tauto
  have hbe : bs.headD (tailOf p) ≠ e := fun hc => hfree (hc ▸ hbm)
  have hpe : k.prev (bs.headD (tailOf p)) ≠ e := fun hc => hfree (hc ▸ hpm')
  have hnext : (listInsertBefore k (bs.headD (tailOf p)) e).next =
      Function.update (Function.update k.next (k.prev (bs.headD (tailOf p))) e) e (bs.headD (tailOf p)) := rfl
  have hprev : (listInsertBefore k (bs.headD (tailOf p)) e).prev =
      Function.update (Function.update k.prev e (k.prev (bs.headD (tailOf p)))) (bs.headD (tailOf p)) e := rfl
  refine h.update (hk.insert hfree ⟨?_, ?_⟩ ⟨?_, ?_⟩ ?_ ?_) ?_ ?_ ?_
  · rw [hnext, update_of_ne hpe, update_self]
  · rw [hprev, update_of_ne (Ne.symm hbe), update_self]
  · rw [hnext, update_self]
  · rw [hprev, update_self]
  · intro a ha hne
    have hae : a ≠ e := fun hc => hfree (hc ▸ ha)
    rw [hnext, update_of_ne hae, update_of_ne hne]
  · intro a ha hne
    have hae : a ≠ e := fun hc => hfree (hc ▸ ha)
    rw [hprev, update_of_ne hne, update_of_ne hae]
  · have h0 := h.nonnull p _ hp
    rw [List.mem_append] at h0 ⊢
    rw [List.mem_cons]
    rintro (ha | rfl | hb)
    · exact h0 (.inl ha)
    · exact he.1 rfl
    · exact h0 (.inr hb)
  · intro a ha
    rcases hsub a ha with rfl | ha
    · exact fun q ys _ hq => he.2 q ys hq
    · exact h.off hp ha
  · intro a q ys hqp hq ha
    have hae : a ≠ e := fun hc => he.2 q ys hq (hc ▸ ha)
    have hab : a ≠ bs.headD (tailOf p) := fun hc => h.off hp hbm q ys hqp hq (hc ▸ ha)
    have hap : a ≠ k.prev (bs.headD (tailOf p)) := fun hc => h.off hp hpm' q ys hqp hq (hc ▸ ha)
    rw [hnext, hprev, update_of_ne hae, update_of_ne hap, update_of_ne hab, update_of_ne hae]
    exact ⟨rfl, rfl⟩

/-- A node is taken from the list it is on. -/
theorem Refines.remove (h : Refines k m) (as bs : List Elem) (hp : m p = some (as ++ e :: bs)) :
    Refines (listRemove k e) (Function.update m p (some (as ++ bs))) := by
  have hk := h.isList p _ hp
  have hpm : k.prev e ∈ headOf p :: as := hk.prev_mem
  have hnm := hk.next_mid
  have hee : k.prev e ≠ e := by
    intro hc
    rw [hc] at hpm
    have hd := hk.nodup
    rw [List.append_assoc, ← List.cons_append, List.nodup_append] at hd
    exact hd.2.2 e hpm e (by simp) rfl
  have hpm' : k.prev e ∈ nodes p (as ++ e :: bs) := by
    unfold nodes
    rw [List.append_assoc, ← List.cons_append]
    exact List.mem_append_left _ hpm
  have hnm' : k.next e ∈ nodes p (as ++ e :: bs) := by
    rw [hnm]
    unfold nodes
    cases bs with
    | nil => simp
    | cons b bs => simp
  have hsub : ∀ a ∈ nodes p (as ++ bs), a ∈ nodes p (as ++ e :: bs) := by
    intro a ha
    unfold nodes at ha ⊢
    simp only [List.mem_cons, List.mem_append] at ha ⊢
    tauto
  have hnext : (listRemove k e).next = Function.update k.next (k.prev e) (k.next e) := rfl
  have hprev : (listRemove k e).prev = Function.update k.prev (k.next e) (k.prev e) := by
    show Function.update k.prev (Function.update k.next (k.prev e) (k.next e) e) (k.prev e) = _
    rw [update_of_ne (Ne.symm hee)]
  refine h.update (hk.remove ⟨?_, ?_⟩ ?_ ?_) ?_ ?_ ?_
  · rw [hnext, update_self]
  · rw [hprev, update_self]
  · exact fun a _ hne => by rw [hnext, update_of_ne hne]
  · exact fun a _ hne => by rw [hprev, update_of_ne hne]
  · have h0 := h.nonnull p _ hp
    rw [List.mem_append, List.mem_cons] at h0
    rw [List.mem_append]
    rintro (ha | hb)
    · exact h0 (.inl ha)
    · exact h0 (.inr (.inr hb))
  · exact fun a ha => h.off hp (hsub a ha)
  · intro a q ys hqp hq ha
    have hap : a ≠ k.prev e := fun hc => h.off hp hpm' q ys hqp hq (hc ▸ ha)
    have han : a ≠ k.next e := fun hc => h.off hp hnm' q ys hqp hq (hc ▸ ha)
    rw [hnext, hprev, update_of_ne hap, update_of_ne han]
    exact ⟨rfl, rfl⟩

/-- What `list_pop` takes. -/
theorem Refines.pop_fst (h : Refines k m) (hp : m p = some (e :: xs)) : (listPop k p).1 = e := (h.isList p _ hp).next_head

/-- **Every call does to one sequence what it is for.** -/
theorem Refines.step (h : Refines k m) (ha : Acts m op m') : Refines (op.exec k) m' := by
  cases ha with
  | init p hh ht => exact h.init hh ht
  | push p e xs hp he =>
    show Refines (listInsertBefore k (k.next (headOf p)) e) _
    rw [(h.isList p xs hp).next_head]
    exact h.insert [] xs hp he
  | append p e xs hp he =>
    rw [← List.append_nil xs] at hp
    exact h.insert xs [] hp he
  | insertBefore p e as bs hp he => exact h.insert as bs hp he
  | remove p e as bs hp => exact h.remove as bs hp
  | pop p e xs hp =>
    show Refines (listRemove k (listPop k p).1) _
    rw [h.pop_fst hp]
    exact h.remove [] xs hp

/-- By induction on the calls. -/
theorem Built.refines (hb : Built k₀ k m) : Refines k m := by
  induction hb with
  | start =>
    refine ⟨?_, ?_, ?_⟩
    · exact fun p xs hp => nomatch hp
    · exact fun p q xs ys _ hp => nomatch hp
    · exact fun p xs hp => nomatch hp
  | step _ ha ih => exact ih.step ha

/-! ## Loops -/

theorem elemFindLoop_eq (objElem : Elem) : ∀ {xs : List Elem} {e : Elem} {fuel : Nat}, Walk k.next t e xs → 0 ∉ xs →
    xs.length < fuel → elemFindLoop k t objElem fuel e = some (decide (objElem ∈ xs))
  | [], e, fuel + 1, hw, _, _ => if_neg fun hc => hc.1 hw
  | x :: xs, e, fuel + 1, ⟨he, hne, hw⟩, h0, hf => by
    have hx0 : x ≠ 0 := fun hc => h0 (hc ▸ List.mem_cons_self)
    have hrest := elemFindLoop_eq objElem hw (fun hc => h0 (List.mem_cons_of_mem x hc)) (Nat.lt_of_succ_lt_succ hf)
    rw [elemFindLoop, he, if_pos ⟨hne, hx0⟩, hrest]
    by_cases hobj : x = objElem
    · rw [if_pos hobj, decide_eq_true (hobj ▸ List.mem_cons_self)]
    · rw [if_neg hobj]
      refine congrArg some (decide_eq_decide.2 ?_)
      rw [List.mem_cons, or_iff_right (Ne.symm hobj)]

theorem listTraversalLoop_eq {σ : Type} (func : Elem → BitVec 32 → σ → Bool × σ) (arg : BitVec 32) :
    ∀ {xs : List Elem} {e : Elem} {fuel : Nat} {s : σ}, Walk k.next t e xs → xs.length < fuel →
      listTraversalLoop k t func arg fuel e s = some (firstMatch func arg xs s)
  | [], e, fuel + 1, s, hw, _ => if_neg (not_not_intro hw)
  | x :: xs, e, fuel + 1, s, ⟨he, hne, hw⟩, hf => by
    have hrest := listTraversalLoop_eq func arg (s := (func x arg s).2) hw (Nat.lt_of_succ_lt_succ hf)
    rw [listTraversalLoop, he, if_pos hne, hrest, firstMatch]
    by_cases hb : (func x arg s).1 = true
    · rw [if_pos hb, if_pos hb]
    · rw [if_neg hb, if_neg hb]

theorem listLenLoop_eq : ∀ {xs : List Elem} {e : Elem} {fuel : Nat} {n : BitVec 32}, Walk k.next t e xs → xs.length < fuel →
    listLenLoop k t fuel e n = some (n + BitVec.ofNat 32 xs.length)
  | [], e, fuel + 1, n, hw, _ => by
    have he : e = t := hw
    rw [listLenLoop, if_neg (not_not_intro he)]
    exact congrArg some (BitVec.add_zero n).symm
  | x :: xs, e, fuel + 1, n, ⟨he, hne, hw⟩, hf => by
    have hrest := listLenLoop_eq (n := n + 1) hw (Nat.lt_of_succ_lt_succ hf)
    rw [listLenLoop, he, if_pos hne, hrest, List.length_cons, BitVec.add_assoc]
    refine congrArg (fun w => some (n + w)) (BitVec.eq_of_toNat_eq ?_)
    rw [BitVec.toNat_add, BitVec.toNat_ofNat, BitVec.toNat_ofNat]
    show (1 + xs.length % 2 ^ 32) % 2 ^ 32 = (xs.length + 1) % 2 ^ 32
    omega

/-- There are not more addresses. -/
theorem length_lt (hd : xs.Nodup) (h0 : 0 ∉ xs) : xs.length < 4294967296 := by
  have hinj : ((0 :: xs).map BitVec.toFin).Nodup :=
    (List.nodup_cons.2 ⟨h0, hd⟩).map fun a b hab => BitVec.eq_of_toFin_eq hab
  have hle := hinj.length_le_card
  rwa [List.length_map, List.length_cons, Fintype.card_fin] at hle

/-! ## Any calls -/

theorem Refines.listEmpty (h : Refines k m) (hp : m p = some xs) : listEmpty k p = decide (xs = []) :=
  decide_eq_decide.2 (h.isList p xs hp).next_head_eq

theorem Refines.listTraversal (h : Refines k m) (hp : m p = some xs) (hf : xs.length < fuel) {σ : Type}
    (func : Elem → BitVec 32 → σ → Bool × σ) (arg : BitVec 32) (s : σ) :
    listTraversal k fuel p func arg s = some (firstMatch func arg xs s) := by
  unfold Lib.listTraversal
  rw [h.listEmpty hp]
  by_cases hxs : xs = []
  · rw [decide_eq_true hxs, hxs]
    rfl
  · rw [decide_eq_false hxs]
    exact listTraversalLoop_eq func arg (h.isList p xs hp).walk_next hf

theorem Refines.listLen (h : Refines k m) (hp : m p = some xs) (hf : xs.length < fuel) :
    ∃ n, listLen k fuel p = some n ∧ n.toNat = xs.length := by
  refine ⟨_, listLenLoop_eq (h.isList p xs hp).walk_next hf, ?_⟩
  rw [show (0 : BitVec 32) + BitVec.ofNat 32 xs.length = BitVec.ofNat 32 xs.length from BitVec.zero_add _, BitVec.toNat_ofNat]
  exact Nat.mod_eq_of_lt (length_lt (h.isList p xs hp).nodup_mid (h.nonnull p xs hp))

end

/-- **Every list is its sequence**, whatever calls have been made. -/
theorem built_refines {k₀ k : Links Elem} {m : Lists} (hb : Built k₀ k m) :
    (∀ plist xs fuel, m plist = some xs → xs.length < fuel →
      forward k fuel plist = some xs ∧ backward k fuel plist = some xs.reverse ∧
      (∀ objElem, elemFind k fuel plist objElem = some (decide (objElem ∈ xs))) ∧
      (∃ n, listLen k fuel plist = some n ∧ n.toNat = xs.length) ∧
      (∀ (σ : Type) (func : Elem → BitVec 32 → σ → Bool × σ) (arg : BitVec 32) (s : σ),
        listTraversal k fuel plist func arg s = some (firstMatch func arg xs s)) ∧
      listEmpty k plist = decide (xs = [])) ∧
    (∀ plist e xs, m plist = some (e :: xs) → (listPop k plist).1 = e) ∧
    ∀ op m', Acts m op m' → Refines (op.exec k) m' := by
  have h := hb.refines
  refine ⟨fun p xs fuel hp hf => ?_, fun p e xs hp => h.pop_fst hp, fun op m' ha => h.step ha⟩
  have hk := h.isList p xs hp
  refine ⟨path_eq hk.walk_next hf, path_eq hk.walk_prev ((List.length_reverse).symm ▸ hf), fun objElem => ?_, h.listLen hp hf,
    fun σ func arg s => h.listTraversal hp hf func arg s, h.listEmpty hp⟩
  exact elemFindLoop_eq objElem hk.walk_next (h.nonnull p xs hp) hf

theorem off_update {m : Lists} {p q e : Elem} {xs : List Elem} (hm : Off m q e) (he : e ∉ nodes p xs) :
    Off (update m p (some xs)) q e := by
  intro r ys hrq hr
  by_cases hrp : r = p
  · subst hrp
    rw [update_self, Option.some.injEq] at hr
    exact hr ▸ he
  · rw [update_of_ne hrp] at hr
    exact hm r ys hrq hr

/-- Two lists in a store that is not cleared; one node is in and out again. -/
theorem built_refines_two : ∃ k m, Built ⟨fun _ => 0xCCCCCCCC, fun _ => 0xCCCCCCCC⟩ k m ∧
    forward k 3 0x100 = some [0x500, 0x400] ∧ backward k 3 0x100 = some [0x400, 0x500] ∧ forward k 1 0x200 = some [] := by
  have hnone : ∀ p e : Elem, Off (fun _ => none) p e := fun _ _ _ _ _ hq => nomatch hq
  -- a node that is no list is on none if it is off them all
  have hfree : ∀ {m : Lists} {p e : Elem}, e ≠ 0 → m p = none → Off m p e → Free m e := fun h0 hp hoff =>
    ⟨h0, fun q ys hq => hoff q ys (fun hc => nomatch (hc ▸ hp).symm.trans hq) hq⟩
  have h0 : Built ⟨fun _ => 0xCCCCCCCC, fun _ => 0xCCCCCCCC⟩ ⟨fun _ => 0xCCCCCCCC, fun _ => 0xCCCCCCCC⟩ fun _ => none := .start
  have h1 := h0.step (.init (0x100 : Elem) (hnone _ _) (hnone _ _))
  have h2 := h1.step (.init (0x200 : Elem) (off_update (hnone _ _) (by decide)) (off_update (hnone _ _) (by decide)))
  have h3 := h2.step (.push (0x100 : Elem) (0x300 : Elem) [] (by decide)
    (hfree (p := 0) (by decide) (by decide) (off_update (off_update (hnone _ _) (by decide)) (by decide))))
  have h4 := h3.step (.append (0x100 : Elem) (0x400 : Elem) [0x300] (by decide)
    (hfree (p := 0) (by decide) (by decide)
      (off_update (off_update (off_update (hnone _ _) (by decide)) (by decide)) (by decide))))
  have h5 := h4.step (.insertBefore (0x100 : Elem) (0x500 : Elem) [0x300] [0x400] (by decide)
    (hfree (p := 0) (by decide) (by decide)
      (off_update (off_update (off_update (off_update (hnone _ _) (by decide)) (by decide)) (by decide)) (by decide))))
  have h6 := h5.step (.remove (0x100 : Elem) 0x300 [] [0x500, 0x400] (by decide))
  obtain ⟨hf, hb, -⟩ := (built_refines h6).1 0x100 [0x500, 0x400] 3 (by decide) (by decide)
  exact ⟨_, _, h6, hf, hb, ((built_refines h6).1 0x200 [] 1 (by decide) (by decide)).1⟩

end Enix.Lib
