import Enix.Fs.Walk
import Enix.Shell.WashPath
import Mathlib.Algebra.Order.BigOperators.Group.List

/-!
# The names in a path

The components of a path that are not empty are its `names`. `path_parse` takes them
off one after the other, and `path_depth_cnt` counts them.

* `names_pathParse`: the first name, and those behind it.
* `exec_pathDepthCnt`: the depth of a path with short names.
-/
set_option autoImplicit false

namespace Enix.Fs
open Enix.Core Enix.Kernel

def names (path : Str) : List Str := (Shell.components path).filter fun c => !c.isEmpty

/-- The names from `name` on, with `sub` behind it. -/
def rest (name : Str) (sub : Option Str) : List Str := if name = [] then [] else name :: sub.elim [] names

/-- What fits an array of MAX_FILE_NAME_LEN bytes with its NUL. -/
def Short (cs : List Str) : Prop := ∀ c ∈ cs, c.length < maxFileNameLen

instance (cs : List Str) : Decidable (Short cs) := inferInstanceAs (Decidable (∀ c ∈ cs, c.length < maxFileNameLen))

section
variable {path name : Str} {sub : Option Str} {cs : List Str} {s : Mem} {d : Dev}

theorem names_slash (path : Str) : names (slash :: path) = names path := by
  unfold names
  rw [Shell.components_slash]
  rfl

theorem names_dropWhile (path : Str) : names (path.dropWhile (· == slash)) = names path := by
  induction path with
  | nil => rfl
  | cons c path ih =>
    by_cases hc : c = slash
    · rw [hc, names_slash, ← ih, List.dropWhile_cons_of_pos (by simp)]
    · rw [List.dropWhile_cons_of_neg (by simpa using hc)]

/-- `path_parse` takes the first name off. -/
theorem names_pathParse (path : Str) : names path = rest (pathParse path).1 (pathParse path).2 := by
  have hlast := (Shell.pathParse_components path).last
  have hslash := (Shell.pathParse_components path).slash
  rw [← names_dropWhile path]
  unfold pathParse at hlast hslash ⊢
  dsimp only at hlast hslash ⊢
  generalize path.dropWhile (· == slash) = q at hlast hslash ⊢
  have hsplit : q.takeWhile (· != slash) ++ q.dropWhile (· != slash) = q := List.takeWhile_append_dropWhile
  have hhead : ∀ c r, q.dropWhile (· != slash) = c :: r → c = slash := fun c r hr => by
    have := List.head?_dropWhile_not (· != slash) q
    rw [hr] at this
    simpa using this
  generalize q.takeWhile (· != slash) = name at hsplit hlast hslash ⊢
  generalize q.dropWhile (· != slash) = r at hsplit hlast hhead ⊢
  unfold rest
  cases r with
  | nil =>
    rw [List.append_nil] at hsplit
    unfold names
    rw [← hsplit, Shell.components_single hslash]
    by_cases hn : name = []
    · rw [if_pos hn, hn]
      rfl
    · rw [if_neg hn, List.filter_cons_of_pos (by simpa using hn)]
      rfl
  | cons c r =>
    obtain rfl := hhead c r rfl
    have hn : name ≠ [] := fun hn => by
      have hnone := hlast hn
      simp at hnone
    unfold names
    rw [← hsplit, Shell.components_append hslash, if_neg hn, List.filter_cons_of_pos (by simpa using hn)]
    show _ = name :: names (slash :: r)
    rw [names_slash]
    rfl

/-- Names put together. -/
theorem names_flatMap (hcs : ∀ c ∈ cs, c ≠ [] ∧ slash ∉ c) : names (cs.flatMap (slash :: ·)) = cs := by
  have hsplit := Shell.components_flatMap (c := []) List.not_mem_nil fun c hc => (hcs c hc).2
  rw [List.nil_append] at hsplit
  unfold names
  rw [hsplit, List.filter_cons_of_neg (by decide)]
  exact List.filter_eq_self.2 fun c hc => by simpa using (hcs c hc).1

theorem mem_names {c : Str} (h : c ∈ names path) : c ≠ [] ∧ slash ∉ c := by
  obtain ⟨hc, hne⟩ := List.mem_filter.1 h
  exact ⟨by simpa using hne, Shell.not_slash_of_components path c hc⟩

theorem mem_pathParse {c : UInt8} : (c ∈ (pathParse path).1 → c ∈ path) ∧ ∀ p, (pathParse path).2 = some p → c ∈ p → c ∈ path := by
  have hdrop : ∀ {a}, a ∈ path.dropWhile (· == slash) → a ∈ path := fun h => List.dropWhile_sublist _ |>.subset h
  unfold pathParse
  dsimp only
  generalize path.dropWhile (· == slash) = q at hdrop ⊢
  refine ⟨fun h => hdrop ((List.takeWhile_sublist _).subset h), fun p hp hc => hdrop ((List.dropWhile_sublist (· != slash)).subset ?_)⟩
  by_cases he : (q.dropWhile (· != slash)).isEmpty = true
  · rw [if_pos he] at hp
    cases hp
  · rw [if_neg he] at hp
    cases hp
    exact hc

/-- With a slash in front of each, the names are no longer than the path. -/
theorem length_names (habs : path.head? = some slash) : ((names path).flatMap (slash :: ·)).length ≤ path.length := by
  obtain ⟨p, rfl⟩ : ∃ p, path = slash :: p := by
    cases path with
    | nil => cases habs
    | cons c p =>
      cases habs
      exact ⟨p, rfl⟩
  have hall := Shell.weight_components p
  have hsub : Shell.weight (names p) ≤ Shell.weight (Shell.components p) :=
    ((List.filter_sublist (l := Shell.components p)).map fun c : Str => c.length + 1).sum_le_sum fun _ _ => Nat.zero_le _
  rw [names_slash, List.length_flatMap, List.length_cons, ← hall]
  exact hsub

theorem length_le_flatMap (cs : List Str) : cs.length ≤ (cs.flatMap (slash :: ·)).length := by
  induction cs with
  | nil => exact Nat.le_refl 0
  | cons c cs ih =>
    rw [List.flatMap_cons, List.length_append, List.length_cons, List.length_cons]
    omega

theorem length_names_le (habs : path.head? = some slash) : (names path).length ≤ path.length :=
  Nat.le_trans (length_le_flatMap (names path)) (length_names habs)

/-! ## Parsing runs through -/

theorem Short.head (h : Short (rest name sub)) : name.length < maxFileNameLen := by
  unfold rest at h
  by_cases hn : name = []
  · rw [hn]
    decide
  · rw [if_neg hn] at h
    exact h name List.mem_cons_self

theorem exec_parseName (h : Short (names path)) : exec device (parseName path) s d = .ok (pathParse path, s, d) := by
  rw [names_pathParse] at h
  unfold parseName
  rw [if_pos (Nat.le_of_lt h.head)]
  rfl

theorem exec_depthLoop (fuel : Nat) : ∀ {name : Str} {sub : Option Str} {n : Nat}, (rest name sub).length < fuel →
    Short (rest name sub) → exec device (depthLoop fuel name sub n) s d = .ok (n + (rest name sub).length, s, d) := by
  induction fuel with
  | zero =>
    intro name sub n hf
    omega
  | succ fuel ih =>
    intro name sub n hf hs
    match name, sub with
    | [], _ => rfl
    | c :: name, none => rfl
    | c :: name, some p =>
      have hcons : rest (c :: name) (some p) = (c :: name) :: names p := rfl
      rw [hcons] at hf hs ⊢
      rw [List.length_cons] at hf ⊢
      have hp : Short (names p) := fun c hc => hs c (List.mem_cons_of_mem _ hc)
      unfold depthLoop
      rw [exec_bind_ok device (exec_parseName hp)]
      rw [names_pathParse] at hf hp ⊢
      dsimp only
      rw [ih (by omega) hp, Nat.add_right_comm]
      rfl

/-- The depth counts the names. -/
theorem exec_pathDepthCnt (habs : path.head? = some slash) (hne : names path ≠ []) (hs : Short (names path)) :
    exec device (pathDepthCnt path) s d = .ok ((names path).length, s, d) := by
  have hlen := length_names_le habs
  unfold pathDepthCnt
  rw [exec_bind_ok device (exec_parseName hs)]
  rw [names_pathParse] at hne hs hlen ⊢
  dsimp only
  have hname : (pathParse path).1 ≠ [] := fun hn => hne (if_pos hn)
  rw [if_neg hname, exec_depthLoop (path.length + 1) (Nat.lt_succ_of_le hlen) hs, Nat.zero_add]

end

end Enix.Fs
