import Enix.Core.NameTree
import Enix.Fs.DeleteEntry
import Enix.Fs.Walk
import Enix.Shell.WashPath

/-!
# The names in a directory

`edgesOf` reads the live entries of a directory as edges of a `NameTree`. In a
`Directory` every live entry has a name and a type, every other place is all zero, and
the first two entries of the first block are "." and "..". The blocks may be anywhere,
in the table of indirect addresses as well, with holes between them.

* `Directory.exec_search`: `search_dir_entry` finds the edge with the name, or there is none.
-/
set_option autoImplicit false

namespace Enix.Fs
open Enix.Core Enix.Kernel

/-! ## One entry -/

/-- The C string at `b`, in an array of `n` bytes. -/
def cstr (n : Nat) (b : Bytes) : Str := ((List.range n).map b).takeWhile (· != 0)

def nameOf (b : Bytes) : Str := cstr 16 b

def edgeOf (b : Bytes) : Edge Str Nat := ⟨nameOf b, le32 b 16, decide (le32 b 20 = ftDirectory)⟩

/-- A component of a path that fits the array. -/
structure Fitting (name : Str) : Prop where
  ne : name ≠ []
  len : name.length < maxFileNameLen
  slash : slash ∉ name
  nul : (0 : UInt8) ∉ name

structure GoodEntry (b : Bytes) : Prop where
  name : Fitting (nameOf b)
  type : le32 b 20 = ftRegular ∨ le32 b 20 = ftDirectory

/-- The place of an entry that was deleted, or was never used. -/
def Blank (b : Bytes) : Prop := ∀ a, a < direntSize → b a = 0

instance (name : Str) : Decidable (Fitting name) :=
  decidable_of_iff (name ≠ [] ∧ name.length < maxFileNameLen ∧ Fs.slash ∉ name ∧ (0 : UInt8) ∉ name)
    ⟨fun h => ⟨h.1, h.2.1, h.2.2.1, h.2.2.2⟩, fun h => ⟨h.ne, h.len, h.slash, h.nul⟩⟩

instance (b : Bytes) : Decidable (GoodEntry b) :=
  decidable_of_iff (Fitting (nameOf b) ∧ (le32 b 20 = ftRegular ∨ le32 b 20 = ftDirectory))
    ⟨fun h => ⟨h.1, h.2⟩, fun h => ⟨h.name, h.type⟩⟩

instance (b : Bytes) : Decidable (Blank b) := inferInstanceAs (Decidable (∀ a, a < direntSize → b a = 0))

section
variable {b c : Bytes} {name : Str} {n : Nat}

theorem cstr_succ (n : Nat) (b : Bytes) : cstr (n + 1) b = if b 0 = 0 then [] else b 0 :: cstr n (shift b 1) := by
  have hmap : (List.range (n + 1)).map b = b 0 :: (List.range n).map (shift b 1) := by
    rw [List.range_succ_eq_map, List.map_cons, List.map_map]
    congr 1
    exact List.map_congr_left fun a _ => by
      show b (a + 1) = b (1 + a)
      rw [Nat.add_comm]
  unfold cstr
  rw [hmap]
  by_cases h0 : b 0 = 0
  · rw [if_pos h0, List.takeWhile_cons_of_neg (by simp [h0])]
  · rw [if_neg h0, List.takeWhile_cons_of_pos (by simp [h0])]

theorem cstr_congr (h : ∀ a, a < n → b a = c a) : cstr n b = cstr n c := by
  unfold cstr
  rw [List.map_congr_left fun a ha => h a (List.mem_range.1 ha)]

/-- The comparison looks for the NUL as well. -/
theorem strEq_iff (hlen : name.length < n) (h0 : (0 : UInt8) ∉ name) : strEq b name = true ↔ cstr n b = name := by
  induction name generalizing b n with
  | nil =>
    obtain ⟨n, rfl⟩ : ∃ m, n = m + 1 := ⟨n - 1, by simp at hlen; omega⟩
    rw [cstr_succ]
    by_cases hb : b 0 = 0
    · simp [strEq, hb]
    · simp [strEq, hb]
  | cons a name ih =>
    obtain ⟨n, rfl⟩ : ∃ m, n = m + 1 := ⟨n - 1, by simp at hlen; omega⟩
    have ha : a ≠ 0 := fun h => h0 (h ▸ List.mem_cons_self)
    have hrest := ih (b := shift b 1) (n := n) (by simpa using hlen) fun h => h0 (List.mem_cons_of_mem _ h)
    rw [cstr_succ]
    by_cases hb : b 0 = 0
    · rw [if_pos hb]
      simp [strEq, hb, Ne.symm ha]
    · rw [if_neg hb, List.cons_eq_cons, ← hrest]
      simp [strEq]

/-- What is read of an entry is in its bytes. -/
theorem entry_congr (h : ∀ a, a < direntSize → b a = c a) :
    nameOf b = nameOf c ∧ le32 b 16 = le32 c 16 ∧ le32 b 20 = le32 c 20 := by
  have h24 : direntSize = 24 := rfl
  exact ⟨cstr_congr fun a ha => h a (by omega), le32_congr fun i hi => h _ (by omega),
    le32_congr fun i hi => h _ (by omega)⟩

theorem edgeOf_congr (h : ∀ a, a < direntSize → b a = c a) : edgeOf b = edgeOf c := by
  obtain ⟨hname, hno, htype⟩ := entry_congr h
  unfold edgeOf
  rw [hname, hno, htype]

theorem nameOf_blank (h : Blank b) : nameOf b = [] := by
  have hz : nameOf b = cstr 16 zeros := cstr_congr fun a ha => h a (Nat.lt_trans ha (by decide))
  rw [hz]
  exact (cstr_succ 15 zeros).trans (if_pos rfl)

theorem type_blank (h : Blank b) : le32 b 20 = ftUnknown := by
  have h24 : direntSize = 24 := rfl
  have hz : le32 b 20 = le32 zeros 20 := le32_congr fun i hi => h _ (by omega)
  rw [hz]
  rfl

theorem GoodEntry.live (h : GoodEntry b) : le32 b 20 ≠ ftUnknown := by
  rcases h.type with ht | ht
  · rw [ht]
    decide
  · rw [ht]
    decide

end

/-! ## Places -/

/-- The entry at place `i` of block `k`. -/
def place (disk : Bytes) (x : Inode) (k i : Nat) : Bytes := direntAt (sectorAtLba disk (fileBlocks disk x k)) i

structure LiveSpot (disk : Bytes) (x : Inode) (k i : Nat) : Prop where
  block : fileBlocks disk x k ≠ 0
  lt : i < dirEntryPerSec
  live : live (sectorAtLba disk (fileBlocks disk x k)) i = true

def edgesOf (disk : Bytes) (x : Inode) : List (Edge Str Nat) := (dirEntries disk x).map fun l => edgeOf (ofStr l)

section
variable {disk disk' : Bytes} {x y : Inode} {k k' i i' : Nat} {e : Edge Str Nat} {b : Bytes}

theorem edgeOf_entryAt (b : Bytes) (i : Nat) : edgeOf (ofStr (entryAt b i)) = edgeOf (direntAt b i) :=
  edgeOf_congr fun a ha => by
    unfold ofStr entryAt
    rw [List.getD_eq_getElem?_getD, List.getElem?_map, List.getElem?_range ha]
    rfl

theorem mem_liveAt {l : List UInt8} : l ∈ liveAt b i ↔ live b i = true ∧ l = entryAt b i := by
  unfold liveAt
  by_cases h : live b i = true
  · rw [if_pos h, List.mem_singleton]
    exact ⟨fun hl => ⟨h, hl⟩, fun hl => hl.2⟩
  · rw [if_neg h]
    exact ⟨fun hl => absurd hl List.not_mem_nil, fun hl => absurd hl.1 h⟩

theorem mem_dirEntries {l : List UInt8} : l ∈ dirEntries disk x ↔
    ∃ k i, LiveSpot disk x k i ∧ l = entryAt (sectorAtLba disk (fileBlocks disk x k)) i := by
  unfold dirEntries
  simp only [List.mem_flatMap, List.mem_range]
  constructor
  · rintro ⟨k, -, hl⟩
    unfold blockEntries at hl
    by_cases h0 : fileBlocks disk x k = 0
    · rw [if_pos h0] at hl
      exact absurd hl List.not_mem_nil
    · rw [if_neg h0] at hl
      obtain ⟨i, hi, hl⟩ := List.mem_flatMap.1 hl
      obtain ⟨hlive, hl⟩ := mem_liveAt.1 hl
      exact ⟨k, i, ⟨h0, List.mem_range.1 hi, hlive⟩, hl⟩
  · rintro ⟨k, i, h, hl⟩
    refine ⟨k, fileBlocks_lt_140 h.block, ?_⟩
    unfold blockEntries
    rw [if_neg h.block]
    exact List.mem_flatMap.2 ⟨i, List.mem_range.2 h.lt, mem_liveAt.2 ⟨h.live, hl⟩⟩

theorem mem_edgesOf : e ∈ edgesOf disk x ↔ ∃ k i, LiveSpot disk x k i ∧ edgeOf (place disk x k i) = e := by
  unfold edgesOf
  rw [List.mem_map]
  constructor
  · rintro ⟨l, hl, rfl⟩
    obtain ⟨k, i, h, rfl⟩ := mem_dirEntries.1 hl
    exact ⟨k, i, h, (edgeOf_entryAt _ _).symm⟩
  · rintro ⟨k, i, h, rfl⟩
    exact ⟨_, mem_dirEntries.2 ⟨k, i, h, rfl⟩, edgeOf_entryAt _ _⟩

end

/-! ## A directory -/

structure Directory (sb : SuperBlock) (disk : Bytes) (x : Inode) : Prop where
  table : x.iSectors 12 ≤ maxLba
  blocks : ∀ k, fileBlocks disk x k ≠ 0 → sb.dataStartLba ≤ fileBlocks disk x k ∧ fileBlocks disk x k ≤ maxLba
  places : ∀ k i, fileBlocks disk x k ≠ 0 → i < dirEntryPerSec → GoodEntry (place disk x k i) ∨ Blank (place disk x k i)
  first : fileBlocks disk x 0 ≠ 0
  self : nameOf (place disk x 0 0) = Shell.dot
  up : nameOf (place disk x 0 1) = Shell.dotdot

section
variable {sb : SuperBlock} {disk : Bytes} {x : Inode} {k i : Nat} {e : Edge Str Nat} {name : Str}

theorem Directory.le (h : Directory sb disk x) (k : Nat) : fileBlocks disk x k ≤ maxLba := by
  by_cases h0 : fileBlocks disk x k = 0
  · rw [h0]
    exact Nat.zero_le _
  · exact (h.blocks k h0).2

theorem Directory.good (h : Directory sb disk x) (hl : LiveSpot disk x k i) : GoodEntry (place disk x k i) := by
  rcases h.places k i hl.block hl.lt with hg | hb
  · exact hg
  · have hlive := hl.live
    unfold live at hlive
    rw [show le32 (direntAt (sectorAtLba disk (fileBlocks disk x k)) i) 20 = ftUnknown from type_blank hb] at hlive
    cases hlive

/-- A place with a name is taken. -/
theorem Directory.spot (h : Directory sb disk x) (h0 : fileBlocks disk x k ≠ 0) (hi : i < dirEntryPerSec)
    (hn : nameOf (place disk x k i) ≠ []) : LiveSpot disk x k i := by
  rcases h.places k i h0 hi with hg | hb
  · exact ⟨h0, hi, bne_iff_ne.2 hg.live⟩
  · exact absurd (nameOf_blank hb) hn

/-- Every edge has a name that fits. -/
theorem Directory.fitting (h : Directory sb disk x) (he : e ∈ edgesOf disk x) : Fitting e.name := by
  obtain ⟨k, i, hl, rfl⟩ := mem_edgesOf.1 he
  exact (h.good hl).name

/-! ## The search -/

theorem searchSector_spec {b : Bytes} {name : Str} (n : Nat) : ∀ {idx : Nat},
    match searchSector b name n idx with
    | none => ∀ i, idx ≤ i → i < idx + n → strEq (direntAt b i) name = false
    | some dirE => ∃ i, idx ≤ i ∧ i < idx + n ∧ strEq (direntAt b i) name = true ∧ dirE = .ofBytes (direntAt b i) := by
  induction n with
  | zero => exact fun i h1 h2 => by omega
  | succ n ih =>
    intro idx
    unfold searchSector
    by_cases hs : strEq (direntAt b idx) name = true
    · rw [if_pos hs]
      exact ⟨idx, Nat.le_refl _, by omega, hs, rfl⟩
    · rw [if_neg hs]
      have hrest := @ih (idx + 1)
      cases hr : searchSector b name n (idx + 1) with
      | none =>
        rw [hr] at hrest
        intro i h1 h2
        by_cases hi : i = idx
        · rw [hi]
          exact Bool.not_eq_true _ ▸ hs
        · exact hrest i (by omega) (by omega)
      | some dirE =>
        rw [hr] at hrest
        obtain ⟨i, h1, h2, h3⟩ := hrest
        exact ⟨i, by omega, by omega, h3⟩

/-- A name among the places of the blocks from `idx` on, taken or not. -/
def Named (disk : Bytes) (B : Nat → Nat) (name : Str) (k i : Nat) : Prop :=
  B k ≠ 0 ∧ i < dirEntryPerSec ∧ strEq (direntAt (sectorAtLba disk (B k)) i) name = true

theorem exec_searchBlocks {s : Mem} {d : Dev} {B : Nat → Nat} (n : Nat) : ∀ {idx : Nat},
    (∀ k, idx ≤ k → k < idx + n → B k ≤ maxLba) → ∃ r, exec device (searchBlocks B name n idx) s d = .ok (r, s, d) ∧
      match r with
      | none => ∀ k i, idx ≤ k → k < idx + n → ¬ Named d.disk B name k i
      | some dirE => ∃ k i, Named d.disk B name k i ∧ dirE = .ofBytes (direntAt (sectorAtLba d.disk (B k)) i) := by
  induction n with
  | zero => exact fun _ => ⟨none, rfl, fun k i h1 h2 => by omega⟩
  | succ n ih =>
    intro idx hle
    obtain ⟨r, hrest, hr⟩ := @ih (idx + 1) fun k h1 h2 => hle k (by omega) (by omega)
    unfold searchBlocks
    by_cases h0 : B idx = 0
    · rw [if_pos h0]
      refine ⟨r, hrest, ?_⟩
      cases r with
      | some dirE => exact hr
      | none =>
        intro k i h1 h2 hn
        by_cases hk : k = idx
        · exact hn.1 (hk ▸ h0)
        · exact hr k i (by omega) (by omega) hn
    · rw [if_neg h0, exec_bind_ok device (exec_ideRead zeros (hle idx (Nat.le_refl _) (by omega)) Nat.one_pos (by decide))]
      have hsec : splice zeros 0 (shift d.disk (512 * B idx)) (512 * 1) = sectorAtLba d.disk (B idx) := rfl
      rw [hsec]
      have hspec := @searchSector_spec (sectorAtLba d.disk (B idx)) name dirEntryPerSec 0
      cases hsearch : searchSector (sectorAtLba d.disk (B idx)) name dirEntryPerSec 0 with
      | some dirE =>
        rw [hsearch] at hspec
        obtain ⟨i, -, hi, hs, rfl⟩ := hspec
        exact ⟨_, rfl, idx, i, ⟨h0, by omega, hs⟩, rfl⟩
      | none =>
        rw [hsearch] at hspec
        refine ⟨r, hrest, ?_⟩
        cases r with
        | some dirE => exact hr
        | none =>
          intro k i h1 h2 hn
          by_cases hk : k = idx
          · subst hk
            have hfalse := hspec i (Nat.zero_le _) (by have := hn.2.1; omega)
            rw [hn.2.2] at hfalse
            cases hfalse
          · exact hr k i (by omega) (by omega) hn

/-- What a search of the directory comes back with. -/
def SearchedFor (disk : Bytes) (x : Inode) (name : Str) : Option DirEntry → Prop
  | none => ∀ e ∈ edgesOf disk x, e.name ≠ name
  | some dirE => ∃ e ∈ edgesOf disk x, e.name = name ∧ dirE.iNo = e.node ∧
      (dirE.fType = ftDirectory ∧ e.dir = true ∨ dirE.fType = ftRegular ∧ e.dir = false)

theorem Directory.searched (h : Directory sb disk x) (hlen : name.length < maxFileNameLen) (h0 : (0 : UInt8) ∉ name) (hne : name ≠ [])
    {r : Option DirEntry} (hr : match r with
      | none => ∀ k i, 0 ≤ k → k < 0 + 140 → ¬ Named disk (fileBlocks disk x) name k i
      | some dirE => ∃ k i, Named disk (fileBlocks disk x) name k i ∧
          dirE = .ofBytes (direntAt (sectorAtLba disk (fileBlocks disk x k)) i)) : SearchedFor disk x name r := by
  cases r with
  | none =>
    rintro e he rfl
    obtain ⟨k, i, hl, rfl⟩ := mem_edgesOf.1 he
    have hlt := fileBlocks_lt_140 hl.block
    exact hr k i (Nat.zero_le _) (by omega) ⟨hl.block, hl.lt, (strEq_iff hlen h0).2 rfl⟩
  | some dirE =>
    obtain ⟨k, i, ⟨hb, hi, hs⟩, rfl⟩ := hr
    have hname : nameOf (place disk x k i) = name := (strEq_iff hlen h0).1 hs
    have hl : LiveSpot disk x k i := h.spot hb hi (hname ▸ hne)
    refine ⟨_, mem_edgesOf.2 ⟨k, i, hl, rfl⟩, hname, rfl, ?_⟩
    show le32 (place disk x k i) 20 = ftDirectory ∧ decide (le32 (place disk x k i) 20 = ftDirectory) = true ∨
      le32 (place disk x k i) 20 = ftRegular ∧ decide (le32 (place disk x k i) 20 = ftDirectory) = false
    rcases (h.good hl).type with ht | ht
    · rw [ht]
      exact .inr ⟨rfl, by decide⟩
    · rw [ht]
      exact .inl ⟨rfl, by decide⟩

/-- The search changes nothing and returns what it borrows. -/
theorem exec_searchDirEntry {s : Mem} {d : Dev} (hp : PartOk s.curPart) (hh : HeapOk d) {dir : Dir}
    (hx : s.inodes dir.inode = some x) (hT : x.iSectors 12 ≤ maxLba) (hle : ∀ k, fileBlocks d.disk x k ≤ maxLba)
    (cur : Pid) (name : Str) : ∃ r d', exec device (searchDirEntry cur dir name) s d = .ok (r, s, d') ∧ Lent [] d d' ∧
      match r with
      | none => ∀ k i, 0 ≤ k → k < 0 + 140 → ¬ Named d.disk (fileBlocks d.disk x) name k i
      | some dirE => ∃ k i, Named d.disk (fileBlocks d.disk x) name k i ∧
          dirE = .ofBytes (direntAt (sectorAtLba d.disk (fileBlocks d.disk x k)) i) := by
  obtain ⟨r, hrun, hr⟩ := @exec_searchBlocks name s ((d.alloc (some cur)).alloc (some cur)) (fileBlocks d.disk x) 140 0
    fun k _ _ => hle k
  have hlent : Lent [(some cur, d.heap.brk + 1), (some cur, d.heap.brk)] d ((d.alloc (some cur)).alloc (some cur)) :=
    ((Lent.refl d).alloc (some cur)).alloc (some cur)
  refine ⟨r, (((d.alloc (some cur)).alloc (some cur)).free (some cur) (d.heap.brk + 1)).free (some cur) d.heap.brk, ?_,
    hlent.pop.pop, hr⟩
  unfold searchDirEntry
  rw [exec_bind_ok device (exec_sysMalloc _ hh.now)]
  dsimp only
  rw [exec_bind_ok device (exec_collectBlocks hx fun _ => hT),
    exec_bind_ok device (exec_sysMallocNN _ (hh.alloc _).now), exec_bind_ok device (exec_dirEntrySize hp)]
  rw [show (d.alloc (some cur)).disk = d.disk from rfl, exec_bind_ok device hrun]
  rfl

theorem Directory.exec_search {s : Mem} {d : Dev} (hp : PartOk s.curPart) (hh : HeapOk d) {dir : Dir} {z : Inode}
    (hz : s.inodes dir.inode = some z) (hsec : z.iSectors = x.iSectors) (h : Directory sb d.disk x) (cur : Pid)
    (hlen : name.length < maxFileNameLen) (h0 : (0 : UInt8) ∉ name) (hne : name ≠ []) :
    ∃ r d', exec device (searchDirEntry cur dir name) s d = .ok (r, s, d') ∧ Lent [] d d' ∧ SearchedFor d.disk x name r := by
  have haddr : fileBlocks d.disk z = fileBlocks d.disk x := fileBlocks_congr hsec fun _ _ _ => rfl
  obtain ⟨r, d', hex, hlent, hr⟩ := exec_searchDirEntry hp hh hz (by rw [hsec]; exact h.table)
    (fun k => by rw [haddr]; exact h.le k) cur name
  rw [haddr] at hr
  exact ⟨r, d', hex, hlent, h.searched hlen h0 hne hr⟩

end

end Enix.Fs
