import Mathlib.Data.List.Nodup

/-!
# Trees of names

A directory is a list of edges: a name, the node behind it, and whether that is a
directory as well. Under two reserved names each has an edge to itself and one to the
directory above; the other edges are the proper ones, and make a tree.

* `NameTree.Ok.walk_dir`: walks lead from directories to directories.
* `NameTree.walk_before`: a name that a walk cannot follow is where every walk ends.
* `NameTree.Ok.walk_climb`: the names found on the way up lead back down.
-/
set_option autoImplicit false

namespace Enix.Core

structure Edge (α ν : Type) where
  name : α
  node : ν
  dir : Bool
  deriving DecidableEq, Repr

structure NameTree (α ν : Type) where
  root : ν
  self : α
  up : α
  edges : ν → List (Edge α ν)

namespace NameTree

variable {α ν : Type} {t : NameTree α ν} {e e' : Edge α ν} {n m p q : ν} {a : α} {as bs : List α}

def IsDir (t : NameTree α ν) (n : ν) : Prop := ⟨t.self, n, true⟩ ∈ t.edges n

/-- An edge down the tree. -/
def Proper (t : NameTree α ν) (e : Edge α ν) : Prop := e.name ≠ t.self ∧ e.name ≠ t.up

structure Ok (t : NameTree α ν) : Prop where
  reserved : t.self ≠ t.up
  root : t.IsDir t.root
  rootUp : ⟨t.up, t.root, true⟩ ∈ t.edges t.root
  isDir : ∀ n e, e ∈ t.edges n → t.IsDir n
  names : ∀ n, ((t.edges n).map Edge.name).Nodup
  above : ∀ n, t.IsDir n → ∃ p, ⟨t.up, p, true⟩ ∈ t.edges n
  below : ∀ n e, e ∈ t.edges n → t.Proper e → e.dir = true → ⟨t.up, n, true⟩ ∈ t.edges e.node
  notRoot : ∀ n e, e ∈ t.edges n → t.Proper e → e.node ≠ t.root
  named : ∀ n, t.IsDir n → n ≠ t.root → ∃ m e, e ∈ t.edges m ∧ t.Proper e ∧ e.dir = true ∧ e.node = n
  once : ∀ n m e e', e ∈ t.edges n → t.Proper e → e' ∈ t.edges m → t.Proper e' → e.node = e'.node → n = m ∧ e = e'
  rank : ∃ r : ν → Nat, ∀ n e, e ∈ t.edges n → t.Proper e → e.dir = true → r n < r e.node

/-! ## Edges of a tree -/

theorem Ok.name_inj (h : t.Ok) (he : e ∈ t.edges n) (he' : e' ∈ t.edges n) (hn : e.name = e'.name) : e = e' :=
  List.inj_on_of_nodup_map (h.names n) he he' hn

theorem Ok.self_edge (h : t.Ok) (he : e ∈ t.edges n) (hn : e.name = t.self) : e = ⟨t.self, n, true⟩ :=
  h.name_inj he (h.isDir n e he) hn

/-- Behind a proper edge to a directory is one. -/
theorem Ok.dir_below (h : t.Ok) (he : e ∈ t.edges n) (hp : t.Proper e) (hd : e.dir = true) : t.IsDir e.node :=
  h.isDir _ _ (h.below n e he hp hd)

/-- The directory above a directory below is the first one. -/
theorem Ok.up_below (h : t.Ok) (he : e ∈ t.edges n) (hp : t.Proper e) (hd : e.dir = true)
    (hu : e' ∈ t.edges e.node) (hn : e'.name = t.up) : e' = ⟨t.up, n, true⟩ :=
  h.name_inj hu (h.below n e he hp hd) hn

theorem Ok.up_root (h : t.Ok) (hu : e ∈ t.edges t.root) (hn : e.name = t.up) : e = ⟨t.up, t.root, true⟩ :=
  h.name_inj hu h.rootUp hn

/-- A directory that is not the root has its edge in the directory above. -/
theorem Ok.edge_above (h : t.Ok) (hd : t.IsDir n) (hn : n ≠ t.root) (hu : ⟨t.up, p, true⟩ ∈ t.edges n) :
    ∃ e, e ∈ t.edges p ∧ t.Proper e ∧ e.dir = true ∧ e.node = n := by
  obtain ⟨m, e, he, hp, hdir, rfl⟩ := h.named n hd hn
  cases h.up_below he hp hdir hu rfl
  exact ⟨e, he, hp, hdir, rfl⟩

/-- Whatever an edge to a directory is named, there is one. -/
theorem Ok.dir_of_edge (h : t.Ok) (he : e ∈ t.edges n) (hd : e.dir = true) : t.IsDir e.node := by
  by_cases hs : e.name = t.self
  · rw [h.self_edge he hs]
    exact h.isDir n e he
  · by_cases hu : e.name = t.up
    · by_cases hn : n = t.root
      · rw [hn] at he
        rw [h.up_root he hu]
        exact h.root
      · obtain ⟨m, e', he', hp', hd', rfl⟩ := h.named n (h.isDir n e he) hn
        rw [h.up_below he' hp' hd' he hu]
        exact h.isDir m e' he'
    · exact h.dir_below he ⟨hs, hu⟩ hd

/-- In the directory above no other edge leads to the same node. -/
theorem Ok.edge_unique (h : t.Ok) (hd : t.IsDir n) (hn : n ≠ t.root) (hu : ⟨t.up, p, true⟩ ∈ t.edges n)
    (he : e ∈ t.edges p) (hp : t.Proper e) (hen : e.node = n) (he' : e' ∈ t.edges p) (hen' : e'.node = n) : e' = e := by
  obtain ⟨r, hr⟩ := h.rank
  have hlt : ∀ {m k}, t.IsDir m → m ≠ t.root → ⟨t.up, k, true⟩ ∈ t.edges m → r k < r m := fun hm hne hmu => by
    obtain ⟨e₁, he₁, hp₁, hd₁, hk⟩ := h.edge_above hm hne hmu
    exact hk ▸ hr _ e₁ he₁ hp₁ hd₁
  have hpn := hlt hd hn hu
  by_cases hs : e'.name = t.self
  · rw [h.self_edge he' hs] at hen'
    exact absurd (show r p = r n by rw [show p = n from hen']) (Nat.ne_of_lt hpn)
  · by_cases hup : e'.name = t.up
    · exfalso
      by_cases hroot : p = t.root
      · rw [hroot] at he'
        rw [h.up_root he' hup] at hen'
        exact hn hen'.symm
      · obtain ⟨k, hk⟩ := h.above p (h.isDir p e he)
        have hek : e' = ⟨t.up, k, true⟩ := h.name_inj he' hk hup
        have hkn : k = n := by rw [hek] at hen'; exact hen'
        have := hlt (h.isDir p e he) hroot hk
        rw [hkn] at this
        omega
    · exact (h.once p p e' e he' ⟨hs, hup⟩ he hp (hen'.trans hen.symm)).2

/-! ## Walks -/

section
variable [DecidableEq α]

def lookup (t : NameTree α ν) (n : ν) (a : α) : Option (Edge α ν) := (t.edges n).find? fun e => e.name = a

/-- From directory to directory. -/
def walk (t : NameTree α ν) : ν → List α → Option ν
  | n, [] => some n
  | n, a :: as =>
    match t.lookup n a with
    | none => none
    | some e => if e.dir then t.walk e.node as else none

theorem lookup_mem (h : t.lookup n a = some e) : e ∈ t.edges n ∧ e.name = a :=
  ⟨List.mem_of_find?_eq_some h, by simpa using List.find?_some h⟩

theorem lookup_none (h : t.lookup n a = none) (he : e ∈ t.edges n) : e.name ≠ a := by
  unfold lookup at h
  rw [List.find?_eq_none] at h
  simpa using h e he

theorem lookup_of_nodup (h : ((t.edges n).map Edge.name).Nodup) (he : e ∈ t.edges n) : t.lookup n e.name = some e := by
  cases hl : t.lookup n e.name with
  | none => exact absurd rfl (lookup_none hl he)
  | some e' =>
    obtain ⟨he', hn⟩ := lookup_mem hl
    rw [List.inj_on_of_nodup_map h he' he hn]

theorem Ok.lookup_eq (h : t.Ok) (he : e ∈ t.edges n) : t.lookup n e.name = some e := lookup_of_nodup (h.names n) he

theorem walk_cons (h : t.lookup n a = some e) (hd : e.dir = true) (as : List α) : t.walk n (a :: as) = t.walk e.node as := by
  rw [walk, h]
  exact if_pos hd

theorem walk_absent (h : ∀ e ∈ t.edges n, e.name ≠ a) (as : List α) : t.walk n (a :: as) = none := by
  rw [walk]
  cases hl : t.lookup n a with
  | none => rfl
  | some e =>
    obtain ⟨he, hname⟩ := lookup_mem hl
    exact absurd hname (h e he)

/-- A walk does not get past a leaf. -/
theorem Ok.walk_leaf (h : t.Ok) (he : e ∈ t.edges n) (hd : e.dir = false) (as : List α) : t.walk n (e.name :: as) = none := by
  rw [walk, h.lookup_eq he]
  exact if_neg (by rw [hd]; decide)

theorem walk_append (as : List α) : ∀ n, t.walk n (as ++ bs) = (t.walk n as).bind fun m => t.walk m bs := by
  induction as with
  | nil => exact fun _ => rfl
  | cons a as ih =>
    intro n
    rw [List.cons_append, walk, walk]
    cases t.lookup n a with
    | none => rfl
    | some e =>
      dsimp only
      by_cases hd : e.dir = true
      · rw [if_pos hd, if_pos hd, ih]
      · rw [if_neg hd, if_neg hd]
        rfl

/-- Where a walk gets stuck, any other walk over the same names has not got further. -/
theorem walk_before {cs : List α} (hstuck : t.walk n (as ++ [a]) = none) (hw : t.walk n bs ≠ none) {ds : List α}
    (heq : as ++ a :: cs = bs ++ ds) : ∃ es, as = bs ++ es ∧ ds = es ++ a :: cs := by
  obtain ⟨es, rfl, hes⟩ | ⟨es, has, hes⟩ := List.append_eq_append_iff.1 heq
  · cases es with
    | nil => exact ⟨[], by rw [List.append_nil, List.append_nil], hes.symm⟩
    | cons x es =>
      obtain ⟨rfl, -⟩ := List.cons.inj hes
      have happend : t.walk n (as ++ [a] ++ es) = _ := walk_append (as ++ [a]) n
      rw [hstuck, List.append_assoc] at happend
      exact absurd happend hw
  · exact ⟨es, has, hes⟩

/-- There is one place where walks over some names get stuck. -/
theorem walk_stuck {b : α} {cs ds : List α} (ha : t.walk n as ≠ none) (hsa : t.walk n (as ++ [a]) = none) (hb : t.walk n bs ≠ none)
    (hsb : t.walk n (bs ++ [b]) = none) (heq : as ++ a :: cs = bs ++ b :: ds) : as = bs ∧ a = b ∧ cs = ds := by
  obtain ⟨es, rfl, hes⟩ := walk_before hsa hb heq
  obtain ⟨fs, hfs, -⟩ := walk_before hsb ha heq.symm
  have hlen := congrArg List.length hfs
  rw [List.length_append, List.length_append] at hlen
  obtain rfl : es = [] := List.eq_nil_of_length_eq_zero (by omega)
  obtain ⟨hab, hcd⟩ := List.cons.inj hes
  exact ⟨List.append_nil bs, hab.symm, hcd.symm⟩

theorem Ok.walk_dir (h : t.Ok) : ∀ (as : List α) {n m}, t.IsDir n → t.walk n as = some m → t.IsDir m := by
  intro as
  induction as with
  | nil =>
    intro n m hn hw
    cases hw
    exact hn
  | cons a as ih =>
    intro n m hn hw
    cases hl : t.lookup n a with
    | none =>
      rw [walk, hl] at hw
      cases hw
    | some e =>
      by_cases hd : e.dir = true
      · rw [walk_cons hl hd] at hw
        exact ih (h.dir_of_edge (lookup_mem hl).1 hd) hw
      · rw [walk, hl] at hw
        dsimp only at hw
        rw [if_neg hd] at hw
        cases hw

end

/-- The names on the way up, the last one first. -/
inductive Climb (t : NameTree α ν) : ν → List α → Prop where
  | root : Climb t t.root []
  | step (n p : ν) (e : Edge α ν) (as : List α) : t.IsDir n → n ≠ t.root → ⟨t.up, p, true⟩ ∈ t.edges n → e ∈ t.edges p →
    t.Proper e → e.node = n → Climb t p as → Climb t n (e.name :: as)

theorem Climb.edge (hc : Climb t n as) (ha : a ∈ as) : ∃ m e, e ∈ t.edges m ∧ e.name = a := by
  induction hc with
  | root => exact absurd ha List.not_mem_nil
  | step n p e as _ _ _ he _ _ _ ih =>
    rcases List.mem_cons.1 ha with rfl | ha
    · exact ⟨p, e, he, rfl⟩
    · exact ih ha

theorem Climb.ne_nil (hc : Climb t n as) (hn : n ≠ t.root) : as ≠ [] := by
  cases hc with
  | root => exact absurd rfl hn
  | step => exact List.cons_ne_nil _ _

theorem Climb.nil (hc : Climb t n as) (hn : n = t.root) : as = [] := by
  cases hc with
  | root => rfl
  | step _ _ _ _ _ hne => exact absurd hn hne

theorem Ok.climbs (h : t.Ok) (hd : t.IsDir n) : ∃ as, Climb t n as := by
  obtain ⟨r, hr⟩ := h.rank
  generalize hk : r n = k
  induction k using Nat.strongRecOn generalizing n with
  | ind k ih =>
    by_cases hn : n = t.root
    · exact ⟨[], hn ▸ .root⟩
    · obtain ⟨p, hp⟩ := h.above n hd
      obtain ⟨e, he, hpr, hdir, rfl⟩ := h.edge_above hd hn hp
      obtain ⟨as, has⟩ := ih (r p) (hk ▸ hr p e he hpr hdir) (h.isDir p e he) rfl
      exact ⟨e.name :: as, .step _ p e as hd hn hp he hpr rfl has⟩

/-- The names lead back to where the climb began. -/
theorem Ok.walk_climb [DecidableEq α] (h : t.Ok) (hc : Climb t n as) : t.walk t.root as.reverse = some n := by
  induction hc with
  | root => rfl
  | step n p e as hd hn hu he hp hen _ ih =>
    obtain ⟨e', he', hp', hd', hen'⟩ := h.edge_above hd hn hu
    obtain ⟨-, heq⟩ := h.once p p e e' he hp he' hp' (hen.trans hen'.symm)
    rw [List.reverse_cons, walk_append, ih]
    show t.walk p [e.name] = some n
    rw [walk_cons (h.lookup_eq he) (heq ▸ hd'), hen]
    rfl

end NameTree

end Enix.Core
