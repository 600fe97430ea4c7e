import Enix.Fs.Path
import Mathlib.Data.List.TakeWhile

/-!
# Paths of the shell (`shell/buildin_cmd.c`)

`wash_path` takes the components of an absolute path off its front and edits the
result in place. `canonical` is what it is for: a stack on which ".." takes back
the component before it.

* `pathParse_components`: `path_parse` takes off the first component that is not empty.
* `washStep_eq`: the search for the last slash takes back one component.
* `washPath_canonical`: the result is the canonical path, and it is washed already.
-/
set_option autoImplicit false

namespace Enix.Shell
open Enix.Fs

/-- "." -/
def dot : Str := [0x2e]
/-- ".." -/
def dotdot : Str := [0x2e, 0x2e]

/-- `path_parse` into a zeroed array of MAX_FILE_NAME_LEN bytes; `none`: no room
for the component and a NUL. -/
def parseInto (pathname : Str) : Option (Str × Option Str) :=
  if (pathParse pathname).1.length < maxFileNameLen then some (pathParse pathname) else none

/-- The position of the last `ch`, from position `i` on.
mirrors src/lib/string.c:94-108 (`strrchr`) -/
def strrchr (ch : UInt8) : (str : Str) → (i : Nat) → (lastChar : Option Nat) → Option Nat
  | [], _, lastChar => lastChar
  | c :: str, i, lastChar => strrchr ch str (i + 1) (if c = ch then some i else lastChar)

/-- One component; a NUL stored at position `i` leaves the first `i` bytes.
mirrors src/shell/buildin_cmd.c:43-69 -/
def washStep (newAbsPath name : Str) : Option Str :=
  if name = dotdot then
    match strrchr slash newAbsPath 0 none with
    | none => none
    | some slashPtr => if slashPtr ≠ 0 then some (newAbsPath.take slashPtr) else some (newAbsPath.take (slashPtr + 1))
  else if name ≠ dot then
    some ((if newAbsPath ≠ [slash] then newAbsPath ++ [slash] else newAbsPath) ++ name)
  else some newAbsPath

/-- mirrors src/shell/buildin_cmd.c:43-75 -/
def washLoop : (fuel : Nat) → (name : Str) → (subPath : Option Str) → (newAbsPath : Str) → Option Str
  | 0, _, _, _ => none
  | fuel + 1, name, subPath, newAbsPath =>
    if name = [] then some newAbsPath
    else do
      let newAbsPath ← washStep newAbsPath name
      match subPath with
      | none => some newAbsPath
      | some p =>
        let (name, subPath) ← parseInto p
        washLoop fuel name subPath newAbsPath

/-- `none` is the `assert`, or an access outside the array of the name.
mirrors src/shell/buildin_cmd.c:20-76 (`wash_path`) -/
def washPath (oldAbsPath : Str) : Option Str :=
  if oldAbsPath.head? = some slash then do
    let (name, subPath) ← parseInto oldAbsPath
    if name = [] then some [slash]
    else washLoop (oldAbsPath.length + 1) name subPath [slash]
  else none

/-! ## Canonical paths -/

/-- The components left over, with one more. -/
def cancel (st : List Str) (c : Str) : List Str :=
  if c = [] ∨ c = dot then st else if c = dotdot then st.dropLast else st ++ [c]

/-- '/c1/.../ck', or '/'. -/
def join (cs : List Str) : Str := if cs = [] then [slash] else cs.flatMap (slash :: ·)

def components (path : Str) : List Str := path.splitOn slash

def canonical (path : Str) : List Str := (components path).foldl cancel []

/-- A component that stays. -/
def Plain (c : Str) : Prop := c ≠ [] ∧ c ≠ dot ∧ c ≠ dotdot

section
variable {st cs : List Str} {c name path p : Str} {sub : Option Str} {fuel : Nat}

@[simp] theorem cancel_nil (st : List Str) : cancel st [] = st := by simp [cancel]

/-! ## Components -/

theorem components_slash (path : Str) : components (slash :: path) = [] :: components path := by
  unfold components
  rw [List.splitOn_cons_eq_if_modifyHead, if_pos (by simp)]

theorem components_single (h : slash ∉ c) : components c = [c] := List.splitOn_eq_singleton h

theorem components_append (h : slash ∉ c) (path : Str) : components (c ++ slash :: path) = c :: components path :=
  List.splitOn_append_cons_self_of_not_mem h path

theorem not_slash_of_components (path : Str) : ∀ c ∈ components path, slash ∉ c := by
  induction path with
  | nil => simp [components]
  | cons x path ih =>
    by_cases hx : x = slash
    · rw [hx, components_slash]
      intro c hc
      rcases List.mem_cons.1 hc with rfl | hc
      · simp
      · exact ih c hc
    · unfold components at ih ⊢
      rw [List.splitOn_cons_eq_if_modifyHead, if_neg (by simpa using hx)]
      cases hs : path.splitOn slash with
      | nil => simp
      | cons d ds =>
        rw [hs] at ih
        intro c hc
        rcases List.mem_cons.1 hc with rfl | hc
        · have hd := ih d List.mem_cons_self
          simp only [List.mem_cons, not_or]
          exact ⟨Ne.symm hx, hd⟩
        · exact ih c (List.mem_cons_of_mem _ hc)

/-- The slashes in front are empty components. -/
theorem components_dropWhile (st : List Str) (path : Str) :
    (components (path.dropWhile (· == slash))).foldl cancel st = (components path).foldl cancel st := by
  induction path with
  | nil => rfl
  | cons x path ih =>
    by_cases hx : x = slash
    · rw [hx, components_slash, List.foldl_cons, cancel_nil, ← ih, List.dropWhile_cons_of_pos (by simp)]
    · rw [List.dropWhile_cons_of_neg (by simpa using hx)]

theorem mem_components_dropWhile (path : Str) :
    ∀ c ∈ components (path.dropWhile (· == slash)), c ∈ components path := by
  induction path with
  | nil => exact fun c hc => hc
  | cons x path ih =>
    by_cases hx : x = slash
    · rw [hx, components_slash, List.dropWhile_cons_of_pos (by simp)]
      exact fun c hc => List.mem_cons_of_mem _ (ih c hc)
    · rw [List.dropWhile_cons_of_neg (by simpa using hx)]
      exact fun c hc => hc

/-- The components of what `path_parse` leaves. -/
def behind : Option Str → List Str
  | none => []
  | some p => components p

/-- What `path_parse` takes off and leaves. -/
structure Parsed (path name : Str) (sub : Option Str) : Prop where
  slash : slash ∉ name
  fold : ∀ st, (components path).foldl cancel st = (behind sub).foldl cancel (cancel st name)
  mem : name ∈ components path ∧ ∀ c ∈ behind sub, c = [] ∨ c ∈ components path
  shorter : ∀ p, sub = some p → p.length + name.length ≤ path.length
  last : name = [] → sub = none

theorem pathParse_components (path : Str) : Parsed path (pathParse path).1 (pathParse path).2 := by
  unfold pathParse
  dsimp only
  have hfold := fun st => (components_dropWhile st path).symm
  have hmem := mem_components_dropWhile path
  have hlen : (path.dropWhile (· == slash)).length ≤ path.length := List.length_dropWhile_le _ _
  have hhead : ∀ x, (path.dropWhile (· == slash)).head? = some x → x ≠ slash := fun x hx he => by
    have := List.head?_dropWhile_not (· == slash) path
    rw [hx] at this
    simp [he] at this
  generalize path.dropWhile (· == slash) = q at *
  have hsplit : q.takeWhile (· != slash) ++ q.dropWhile (· != slash) = q := List.takeWhile_append_dropWhile
  have hslash : slash ∉ q.takeWhile (· != slash) := fun h => by
    have := List.mem_takeWhile_imp h
    simp at this
  have hrest : ∀ x r, q.dropWhile (· != slash) = x :: r → x = slash := fun x r hr => by
    have := List.head?_dropWhile_not (· != slash) q
    rw [hr] at this
    simpa using this
  generalize hn : q.takeWhile (· != slash) = name at *
  generalize q.dropWhile (· != slash) = rest at *
  cases rest with
  | nil =>
    rw [List.append_nil] at hsplit
    have hq : components q = [name] := by rw [← hsplit, components_single hslash]
    refine ⟨hslash, fun st => ?_, ⟨hmem _ (by rw [hq]; exact List.mem_singleton_self _), ?_⟩, ?_, fun _ => rfl⟩
    · rw [hfold, hq]
      rfl
    · intro c hc
      simp [behind] at hc
    · intro p hp
      simp at hp
  | cons x r =>
    obtain rfl := hrest x r rfl
    have hq : components q = name :: components r := by rw [← hsplit, components_append hslash]
    refine ⟨hslash, fun st => ?_, ⟨hmem _ (by rw [hq]; exact List.mem_cons_self), fun c hc => ?_⟩, fun p hp => ?_, fun h => ?_⟩
    · rw [hfold, hq]
      simp [behind, components_slash]
    · simp only [List.isEmpty_cons, Bool.false_eq_true, if_false, behind, components_slash] at hc
      rcases List.mem_cons.1 hc with hc | hc
      · exact .inl hc
      · exact .inr (hmem c (by rw [hq]; exact List.mem_cons_of_mem _ hc))
    · simp only [List.isEmpty_cons, Bool.false_eq_true, if_false, Option.some.injEq] at hp
      have := congrArg List.length hsplit
      rw [← hp]
      simp only [List.length_append] at this
      omega
    · -- an empty name would mean that the path goes on with a slash
      rw [h, List.nil_append] at hsplit
      exact absurd rfl (hhead _ (by rw [← hsplit]; rfl))

/-! ## One component -/

theorem strrchr_append (ch : UInt8) (a b : Str) (i : Nat) (last : Option Nat) :
    strrchr ch (a ++ b) i last = strrchr ch b (i + a.length) (strrchr ch a i last) := by
  induction a generalizing i last with
  | nil => rfl
  | cons x a ih =>
    rw [List.cons_append, strrchr, ih, strrchr, List.length_cons]
    congr 1
    omega

theorem strrchr_none {ch : UInt8} (h : ch ∉ c) (i : Nat) (last : Option Nat) : strrchr ch c i last = last := by
  induction c generalizing i last with
  | nil => rfl
  | cons x c ih =>
    simp only [List.mem_cons, not_or] at h
    rw [strrchr, if_neg (Ne.symm h.1), ih h.2]

theorem join_snoc (cs : List Str) (c : Str) : join (cs ++ [c]) = cs.flatMap (slash :: ·) ++ slash :: c := by
  unfold join
  rw [if_neg (by simp), List.flatMap_append]
  simp

/-- The last component begins behind the last slash. -/
theorem strrchr_join (h : slash ∉ c) (cs : List Str) :
    strrchr slash (join (cs ++ [c])) 0 none = some (cs.flatMap (slash :: ·)).length := by
  rw [join_snoc, strrchr_append, strrchr, if_pos rfl, strrchr_none h, Nat.zero_add]

theorem flatMap_ne_nil (h : cs ≠ []) : cs.flatMap (slash :: ·) ≠ [] := by
  cases cs with
  | nil => exact absurd rfl h
  | cons c cs => simp

/-- Components on the stack are not empty and hold no slash. -/
def Stacked (st : List Str) : Prop := ∀ c ∈ st, c ≠ [] ∧ slash ∉ c

theorem Stacked.cancel (h : Stacked st) (hs : slash ∉ c) : Stacked (cancel st c) := by
  unfold Shell.cancel
  split
  · exact h
  · rename_i hc
    split
    · exact fun d hd => h d (List.dropLast_subset st hd)
    · intro d hd
      rcases List.mem_append.1 hd with hd | hd
      · exact h d hd
      · rw [List.mem_singleton.1 hd]
        exact ⟨fun he => hc (.inl he), hs⟩

theorem join_ne_root (h : Stacked st) (hst : st ≠ []) : join st ≠ [slash] := by
  intro he
  obtain ⟨cs, c, rfl⟩ := List.eq_nil_or_concat'  st |>.resolve_left hst
  have hlen := congrArg List.length he
  rw [join_snoc] at hlen
  simp only [List.length_append, List.length_cons, List.length_nil] at hlen
  have hc := (h c (by simp)).1
  have := List.length_pos_iff.2 hc
  omega

/-- The edited string stands for the stack. -/
theorem washStep_eq (h : Stacked st) (hn : name ≠ []) : washStep (join st) name = some (join (cancel st name)) := by
  unfold washStep cancel
  by_cases hdd : name = dotdot
  · have hd : ¬ (name = [] ∨ name = dot) := by
      rw [hdd]
      decide
    rw [if_pos hdd, if_neg hd, if_pos hdd]
    rcases List.eq_nil_or_concat' st with rfl | ⟨cs, c, rfl⟩
    · rfl
    · rw [strrchr_join (h c (by simp)).2, List.dropLast_concat, join_snoc]
      dsimp only
      by_cases hcs : cs = []
      · rw [hcs]
        rfl
      · have hne : (cs.flatMap (slash :: ·)).length ≠ 0 := fun hl => flatMap_ne_nil hcs (List.length_eq_zero_iff.1 hl)
        rw [if_pos hne, List.take_left, join, if_neg hcs]
  · by_cases hd : name = dot
    · rw [if_neg hdd, if_neg (by simpa using hd), if_pos (.inr hd)]
    · have hne : ¬ (name = [] ∨ name = dot) := by
        rintro (h | h)
        · exact hn h
        · exact hd h
      rw [if_neg hdd, if_pos hd, if_neg hne, if_neg hdd, join_snoc]
      by_cases hst : st = []
      · rw [hst]
        rfl
      · rw [if_pos (join_ne_root h hst), join, if_neg hst, List.append_assoc]
        rfl

/-! ## The loop -/

theorem parseInto_eq (h : (pathParse path).1.length ≤ 15) : parseInto path = some (pathParse path) :=
  if_pos (Nat.lt_succ_of_le h)

/-- The string stands for the stack; what is still to come shortens. -/
theorem washLoop_eq (hst : Stacked st) (hn : name ≠ []) (hs : slash ∉ name)
    (hlen : ∀ c ∈ behind sub, c.length ≤ 15) (hfuel : ∀ p, sub = some p → p.length + 1 < fuel) (h1 : 0 < fuel) :
    washLoop fuel name sub (join st) = some (join ((behind sub).foldl cancel (cancel st name))) := by
  induction fuel generalizing st name sub with
  | zero => omega
  | succ fuel ih =>
    unfold washLoop
    rw [if_neg hn, washStep_eq hst hn]
    cases sub with
    | none => rfl
    | some p =>
      have hp := pathParse_components p
      have hcs : ∀ c ∈ components p, c.length ≤ 15 := hlen
      have hpf := hfuel p rfl
      simp only [Option.bind_eq_bind, Option.bind_some, parseInto_eq (hcs _ hp.mem.1)]
      change washLoop fuel (pathParse p).1 (pathParse p).2 (join (cancel st name)) = some (join ((components p).foldl cancel (cancel st name)))
      rw [hp.fold]
      by_cases hn' : (pathParse p).1 = []
      · obtain ⟨k, rfl⟩ : ∃ k, fuel = k + 1 := ⟨fuel - 1, by omega⟩
        unfold washLoop
        rw [if_pos hn', hp.last hn', hn', cancel_nil]
        rfl
      · refine ih (hst.cancel hs) hn' hp.slash (fun c hc => ?_) (fun q hq => ?_) (by omega)
        · rcases hp.mem.2 c hc with rfl | hc
          · exact Nat.zero_le _
          · exact hcs c hc
        · have := hp.shorter q hq
          have := List.length_pos_iff.2 hn'
          omega

theorem washPath_eq (habs : path.head? = some slash) (hlen : ∀ c ∈ components path, c.length ≤ 15) :
    washPath path = some (join (canonical path)) := by
  have hp := pathParse_components path
  unfold washPath
  simp only [if_pos habs, parseInto_eq (hlen _ hp.mem.1), Option.bind_eq_bind, Option.bind_some]
  unfold canonical
  rw [hp.fold]
  by_cases hn : (pathParse path).1 = []
  · rw [if_pos hn, hp.last hn, hn]
    rfl
  · rw [if_neg hn]
    have hst : Stacked [] := fun c hc => absurd hc List.not_mem_nil
    refine washLoop_eq hst hn hp.slash (fun c hc => ?_) (fun p hsub => ?_) (Nat.succ_pos _)
    · rcases hp.mem.2 c hc with rfl | hc
      · exact Nat.zero_le _
      · exact hlen c hc
    · have := hp.shorter p hsub
      have := List.length_pos_iff.2 hn
      omega

/-! ## What a canonical path is -/

/-- Only plain components of the path are left over. -/
theorem mem_foldl_cancel (cs : List Str) : ∀ st, ∀ c ∈ cs.foldl cancel st, c ∈ st ∨ c ∈ cs ∧ Plain c := by
  induction cs with
  | nil => exact fun st c hc => .inl hc
  | cons d cs ih =>
    intro st c hc
    rw [List.foldl_cons] at hc
    rcases ih (cancel st d) c hc with hc | ⟨hc, hp⟩
    · unfold cancel at hc
      split at hc
      · exact .inl hc
      · rename_i hd
        split at hc
        · exact .inl (List.dropLast_subset st hc)
        · rename_i hdd
          rcases List.mem_append.1 hc with hc | hc
          · exact .inl hc
          · rw [List.mem_singleton.1 hc]
            exact .inr ⟨List.mem_cons_self, fun he => hd (.inl he), fun he => hd (.inr he), hdd⟩
    · exact .inr ⟨List.mem_cons_of_mem _ hc, hp⟩

theorem mem_canonical (h : c ∈ canonical path) : c ∈ components path ∧ Plain c := by
  rcases mem_foldl_cancel _ [] c h with h | h
  · exact absurd h (List.not_mem_nil)
  · exact h

theorem components_flatMap (hc : slash ∉ c) (hcs : ∀ d ∈ cs, slash ∉ d) :
    components (c ++ cs.flatMap (slash :: ·)) = c :: cs := by
  induction cs generalizing c with
  | nil => rw [List.flatMap_nil, List.append_nil, components_single hc]
  | cons d cs ih =>
    rw [List.flatMap_cons, List.cons_append, components_append hc,
      ih (hcs d List.mem_cons_self) fun e he => hcs e (List.mem_cons_of_mem _ he)]

/-- A canonical path has its components and, in front of the first slash, an empty one. -/
theorem components_join (hcs : ∀ d ∈ cs, slash ∉ d) : components (join cs) = [] :: if cs = [] then [[]] else cs := by
  unfold join
  by_cases h : cs = []
  · rw [if_pos h, if_pos h]
    rfl
  · rw [if_neg h, if_neg h]
    exact components_flatMap (c := []) (List.not_mem_nil) hcs

/-- Plain components are left as they are. -/
theorem foldl_cancel_plain (hcs : ∀ d ∈ cs, Plain d) : ∀ st, cs.foldl cancel st = st ++ cs := by
  induction cs with
  | nil => exact fun st => (List.append_nil st).symm
  | cons d cs ih =>
    intro st
    obtain ⟨h1, h2, h3⟩ := hcs d List.mem_cons_self
    have hd : cancel st d = st ++ [d] := by
      have hne : ¬ (d = [] ∨ d = dot) := by
        rintro (h | h)
        · exact h1 h
        · exact h2 h
      unfold cancel
      rw [if_neg hne, if_neg h3]
    rw [List.foldl_cons, hd, ih (fun e he => hcs e (List.mem_cons_of_mem _ he)), List.append_assoc]
    rfl

theorem canonical_join (hcs : ∀ d ∈ cs, slash ∉ d ∧ Plain d) : canonical (join cs) = cs := by
  unfold canonical
  rw [components_join fun d hd => (hcs d hd).1, List.foldl_cons, cancel_nil]
  by_cases h : cs = []
  · rw [if_pos h, h]
    rfl
  · rw [if_neg h, foldl_cancel_plain fun d hd => (hcs d hd).2]
    rfl

/-- The components with a slash in front of each. -/
def weight (cs : List Str) : Nat := (cs.map fun c => c.length + 1).sum

theorem weight_components (path : Str) : weight (components path) = path.length + 1 := by
  induction path with
  | nil => rfl
  | cons x path ih =>
    by_cases hx : x = slash
    · rw [hx, components_slash]
      unfold weight at ih ⊢
      rw [List.map_cons, List.sum_cons, ih, List.length_nil, List.length_cons]
      omega
    · unfold components weight at ih ⊢
      rw [List.splitOn_cons_eq_if_modifyHead, if_neg (by simpa using hx)]
      cases hs : path.splitOn slash with
      | nil => exact absurd hs (List.splitOn_ne_nil slash path)
      | cons d ds =>
        rw [hs] at ih
        simp only [List.modifyHead_cons, List.map_cons, List.sum_cons, List.length_cons] at ih ⊢
        omega

theorem weight_cancel (st : List Str) (c : Str) : weight (cancel st c) ≤ weight st + (c.length + 1) := by
  unfold cancel weight
  split
  · omega
  · split
    · rcases List.eq_nil_or_concat' st with rfl | ⟨cs, d, rfl⟩
      · simp
      · simp only [List.dropLast_concat, List.map_append, List.sum_append]
        omega
    · simp

theorem weight_foldl (cs : List Str) : ∀ st, weight (cs.foldl cancel st) ≤ weight st + weight cs := by
  induction cs with
  | nil => exact fun st => Nat.le_refl _
  | cons c cs ih =>
    intro st
    have h1 := ih (cancel st c)
    have h2 := weight_cancel st c
    have h3 : weight (c :: cs) = c.length + 1 + weight cs := by simp [weight]
    rw [List.foldl_cons]
    omega

theorem length_join (h : cs ≠ []) : (join cs).length = weight cs := by
  unfold join weight
  rw [if_neg h, List.length_flatMap]
  rfl

theorem canonical_length (habs : path.head? = some slash) : (join (canonical path)).length ≤ path.length := by
  obtain ⟨rest, rfl⟩ : ∃ rest, path = slash :: rest := by
    cases path with
    | nil => cases habs
    | cons x rest => exact ⟨rest, by rw [Option.some.inj habs]⟩
  by_cases h : canonical (slash :: rest) = []
  · rw [h]
    simp [join]
  · have hw := weight_foldl (components rest) []
    have hc : canonical (slash :: rest) = (components rest).foldl cancel [] := by
      unfold canonical
      rw [components_slash, List.foldl_cons, cancel_nil]
    rw [length_join h, hc]
    rw [weight_components] at hw
    simpa [weight] using hw

end

/-- The washed path is the canonical one: no longer, without ".", ".." and empty
components, and washed already. -/
theorem washPath_canonical (path : Str) (habs : path.head? = some slash) (hlen : ∀ c ∈ components path, c.length ≤ 15) :
    washPath path = some (join (canonical path)) ∧ (join (canonical path)).length ≤ path.length ∧
      (join (canonical path) = [slash] ∨ ∀ c ∈ components (join (canonical path)).tail, Plain c) ∧
      washPath (join (canonical path)) = some (join (canonical path)) := by
  have hmem : ∀ c ∈ canonical path, slash ∉ c ∧ Plain c := fun c hc =>
    ⟨not_slash_of_components path c (mem_canonical hc).1, (mem_canonical hc).2⟩
  refine ⟨washPath_eq habs hlen, canonical_length habs, ?_, ?_⟩
  · cases hcs : canonical path with
    | nil => exact .inl rfl
    | cons c cs =>
      rw [hcs] at hmem
      refine .inr ?_
      have htail : (join (c :: cs)).tail = c ++ cs.flatMap (slash :: ·) := rfl
      rw [htail, components_flatMap (hmem c List.mem_cons_self).1 fun d hd => (hmem d (List.mem_cons_of_mem _ hd)).1]
      exact fun d hd => (hmem d hd).2
  · have habs' : (join (canonical path)).head? = some slash := by
      unfold join
      split
      · rfl
      · rename_i h
        cases hcs : canonical path with
        | nil => exact absurd hcs h
        | cons c cs => rfl
    rw [washPath_eq habs' fun c hc => ?_, canonical_join hmem]
    rw [components_join fun d hd => (hmem d hd).1] at hc
    rcases List.mem_cons.1 hc with rfl | hc
    · exact Nat.zero_le _
    · split at hc
      · rw [List.mem_singleton.1 hc]
        exact Nat.zero_le _
      · exact hlen c (mem_canonical hc).1

/-- "/a/b/../c/./d" is "/a/c/d". -/
theorem washPath_canonical_acd :
    let path : Str := [0x2f, 0x61, 0x2f, 0x62, 0x2f, 0x2e, 0x2e, 0x2f, 0x63, 0x2f, 0x2e, 0x2f, 0x64]
    washPath path = some (join (canonical path)) ∧ (join (canonical path)).length ≤ path.length ∧
      (join (canonical path) = [slash] ∨ ∀ c ∈ components (join (canonical path)).tail, Plain c) ∧
      washPath (join (canonical path)) = some (join (canonical path)) :=
  washPath_canonical _ (by decide) (by decide)

end Enix.Shell
