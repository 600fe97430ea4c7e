import Enix.Device.Scan
import Mathlib.Data.List.Nodup

/-!
# Formatting what the scan found (`fs/fs.c:479-558`)

`part_idx` counts to twelve on the first disk and stays there, so `filesys_init`
formats the partitions of that disk only; `ext_lba_base` stays where the first
extended partition was.

* `formatDisk_magic`: after the loop over one disk each of its partitions has a
  super block, and nothing outside them has changed.
* `filesysInit_independent`: machines on which the disks are independent.
* `second_disk_lost`, `second_disk_raw`: two disks alike, of which the second one is
  read at the wrong place, or not formatted.
-/
set_option autoImplicit false

namespace Enix.Device
open Enix.Core Enix.Kernel Enix.Fs Function

/-- The first word of the super block. -/
def HasMagic (disk : Bytes) (p : Part) : Prop := le32 disk (512 * (p.startLba + 1)) = 0x19590318

/-- Every partition of the second disks `cs` is on the list once, as its own tables give it, and has a
super block. -/
structure Independent (prims logs : Nat → List Part) (cs : List Nat) (y : Ide) : Prop where
  registered : ∀ c ∈ cs, ((y.partitionList.filter fun r => r.1 = (c, 1)).map fun r => y.parts r.1 r.2).Perm (prims c ++ logs c)
  once : y.partitionList.Nodup
  only : ∀ r ∈ y.partitionList, ∃ c ∈ cs, r.1 = (c, 1)
  magic : ∀ c ∈ cs, ∀ p ∈ prims c ++ logs c, HasMagic (y.disk (c, 1)) p

/-! ## One partition -/

section
variable {hd : Hd} {x y z : Ide} {p : Part} {prims logs : Nat → List Part} {cs : List Nat} {frames : Nat}

/-- A byte of partition `p`. -/
def Part.covers (p : Part) (a : Nat) : Prop := 512 * p.startLba ≤ a ∧ a < 512 * (p.startLba + p.secCnt)

/-- Only bytes of `hd` in `S` have changed, and nothing of what was registered. -/
structure Wrote (hd : Hd) (S : Nat → Prop) (x y : Ide) : Prop where
  parts : y.parts = x.parts
  list : y.partitionList = x.partitionList
  heap : x.HeapOk → y.HeapOk
  others : ∀ hd', hd' ≠ hd → y.disk hd' = x.disk hd'
  disk : ∀ a, ¬ S a → y.disk hd a = x.disk hd a

theorem Wrote.refl (hd : Hd) (S : Nat → Prop) (x : Ide) : Wrote hd S x x := ⟨rfl, rfl, id, fun _ _ => rfl, fun _ _ => rfl⟩

theorem Wrote.trans {S T : Nat → Prop} (h : Wrote hd S x y) (h' : Wrote hd T y z) : Wrote hd (fun a => S a ∨ T a) x z where
  parts := h'.parts.trans h.parts
  list := h'.list.trans h.list
  heap hx := h'.heap (h.heap hx)
  others hd' hne := (h'.others hd' hne).trans (h.others hd' hne)
  disk a ha := (h'.disk a fun ht => ha (.inr ht)).trans (h.disk a fun hs => ha (.inl hs))

theorem Wrote.mono {S T : Nat → Prop} (h : Wrote hd S x y) (hS : ∀ a, S a → T a) : Wrote hd T x y :=
  ⟨h.parts, h.list, h.heap, h.others, fun a ha => h.disk a fun hs => ha (hS a hs)⟩

/-- A super block in a part of the disk that is left alone. -/
theorem HasMagic.kept {S : Nat → Prop} (h : HasMagic (x.disk hd) p) (hw : Wrote hd S x y)
    (hS : ∀ a, 512 * (p.startLba + 1) ≤ a → a < 512 * (p.startLba + 1) + 4 → ¬ S a) : HasMagic (y.disk hd) p := by
  have hle : le32 (y.disk hd) (512 * (p.startLba + 1)) = le32 (x.disk hd) (512 * (p.startLba + 1)) :=
    le32_congr fun i hi => hw.disk _ (hS _ (by omega) (by omega))
  exact hle.trans h

/-- A total run on a disk. -/
theorem runs_onDisk {α : Type} {m : K α} {P : α → Mem → Dev → Prop} (hx : x.HeapOk)
    (h : wp device (fun _ => ¬ Kernel.HeapOk ⟨x.disk hd, x.heap⟩) m P x.mem ⟨x.disk hd, x.heap⟩) :
    runs (fun _ => False) (onDisk hd m) (fun a y => ∃ s d, P a s d ∧
      y = { x with mem := s, disk := update x.disk hd d.disk, heap := d.heap }) x := by
  unfold wp at h
  split at h
  · rename_i a s d he
    rw [runs_ok (onDisk_run he)]
    exact ⟨s, d, h, rfl⟩
  · exact absurd hx h

theorem partitionFormat_wrote (hx : x.HeapOk) (hmin : 613 ≤ p.secCnt) (hmax : p.startLba + p.secCnt ≤ maxLba + 1) :
    runs (fun _ => False) (onDisk hd (partitionFormat p.startLba p.secCnt))
      (fun _ y => Wrote hd p.covers x y ∧ HasMagic (y.disk hd) p) x := by
  refine runs_post (runs_onDisk hx (partitionFormat_spec hmin hmax)) fun _ y hy => ?_
  obtain ⟨s, d, ⟨-, hf, hheap, hout⟩, rfl⟩ := hy
  refine ⟨⟨rfl, rfl, hheap, fun hd' hne => update_of_ne hne .., fun a ha => ?_⟩, ?_⟩
  · show update x.disk hd d.disk hd a = _
    rw [update_self]
    refine hout a ?_
    by_contra hno
    exact ha ⟨by omega, by omega⟩
  · show le32 (update x.disk hd d.disk hd) _ = _
    have hread : le32 d.disk (512 * (p.startLba + 1)) =
        le32 (words (SuperBlock.word (newSuperBlock p.startLba p.secCnt))) (4 * 0) :=
      le32_congr fun i hi => by
        rw [Nat.mul_zero, Nat.zero_add]
        exact hf.superBlock i (by omega)
    rw [update_self, hread]
    exact le32_words_of_lt (newSuperBlock_word_lt hmin hmax 0 (by decide))

/-- An unused partition, or one with room for a file system, or with a super block. -/
def Roomy (disk : Bytes) (p : Part) : Prop := p.secCnt ≠ 0 →
  (613 ≤ p.secCnt ∨ (2 ≤ p.secCnt ∧ HasMagic disk p)) ∧ p.startLba + p.secCnt ≤ maxLba + 1

theorem formatPart_magic (hx : x.HeapOk) (hp : Roomy (x.disk hd) p) : runs (fun _ => False) (formatPart hd p)
    (fun _ y => Wrote hd p.covers x y ∧ (p.secCnt ≠ 0 → HasMagic (y.disk hd) p)) x := by
  have hlt : maxLba < 4294967296 := by decide
  unfold formatPart
  refine runs_when (fun hne => ?_) fun hno => ⟨Wrote.refl .., fun hne => absurd hne hno⟩
  obtain ⟨hmin, hmax⟩ := hp hne
  have htwo : 2 ≤ p.secCnt := by
    cases hmin with
    | inl h => omega
    | inr h => exact h.1
  have hadd : add32 p.startLba 1 = p.startLba + 1 := Nat.mod_eq_of_lt (by omega)
  rw [hadd, runs_bind_ok (ideRead_sector (by omega))]
  have hread : le32 (sector (x.disk hd) (p.startLba + 1)) 0 = le32 (x.disk hd) (512 * (p.startLba + 1)) :=
    le32_splice_in (Nat.le_refl 0) (by omega)
  rw [hread]
  refine runs_when (fun hraw => ?_) fun hno => ⟨Wrote.refl .., fun _ => not_not.1 hno⟩
  have hmin : 613 ≤ p.secCnt := hmin.resolve_right fun h => hraw h.2
  exact runs_post (partitionFormat_wrote hx hmin hmax) fun _ y hy => ⟨hy.1, fun _ => hy.2⟩

/-! ## One disk -/

/-- Two partitions that do not meet, or one that is not used. -/
def Apart (p q : Part) : Prop := p.secCnt ≠ 0 → q.secCnt ≠ 0 →
  p.startLba + p.secCnt ≤ q.startLba ∨ q.startLba + q.secCnt ≤ p.startLba

theorem Apart.symm {p q : Part} (h : Apart p q) : Apart q p := fun hq hp => (h hp hq).symm

theorem Apart.super {p q : Part} (h : Apart p q) (hmin : 2 ≤ p.secCnt) {a : Nat}
    (h₁ : 512 * (p.startLba + 1) ≤ a) (h₂ : a < 512 * (p.startLba + 1) + 4) : ¬ q.covers a := by
  intro hq
  obtain ⟨hq₁, hq₂⟩ := hq
  have hcnt : q.secCnt ≠ 0 := by omega
  have := h (by omega) hcnt
  omega

theorem Roomy.two {disk : Bytes} (h : Roomy disk p) (hne : p.secCnt ≠ 0) : 2 ≤ p.secCnt := by
  cases (h hne).1 with
  | inl h => omega
  | inr h => exact h.1

/-- The loop over the partitions from the `k`th on, by induction on those that are left. -/
theorem formatDisk_magic : ∀ (n k : Nat) (x : Ide), k + n = 12 → x.HeapOk →
    (∀ j, k ≤ j → j < 12 → Roomy (x.disk hd) (x.parts hd j)) →
    (∀ i j, k ≤ i → i < j → j < 12 → Apart (x.parts hd i) (x.parts hd j)) →
    runs (fun _ => False) (formatDisk hd n k k) (fun r y => r = 12 ∧
      Wrote hd (fun a => ∃ j, k ≤ j ∧ j < 12 ∧ (x.parts hd j).covers a) x y ∧
      ∀ j, k ≤ j → j < 12 → (x.parts hd j).secCnt ≠ 0 → HasMagic (y.disk hd) (x.parts hd j)) x := by
  intro n
  induction n with
  | zero =>
    intro k x hk _ _ _
    exact ⟨by omega, Wrote.refl .., fun j h₁ h₂ => absurd h₂ (by omega)⟩
  | succ n ih =>
    intro k x hk hx hroom hapart
    have hpart : (if k = 4 then 4 else k) = k := by
      by_cases h4 : k = 4
      · rw [if_pos h4, h4]
      · rw [if_neg h4]
    unfold formatDisk
    simp only [hpart]
    rw [runs_read_bind]
    refine runs_seq (formatPart_magic hx (hroom k (Nat.le_refl k) (by omega))) fun _ y hy => ?_
    obtain ⟨hw, hmagic⟩ := hy
    have hparts : y.parts hd = x.parts hd := by rw [hw.parts]
    have hroom' : ∀ j, k + 1 ≤ j → j < 12 → Roomy (y.disk hd) (x.parts hd j) := by
      intro j h₁ h₂ hne
      obtain ⟨hor, hmax⟩ := hroom j (by omega) h₂ hne
      refine ⟨hor.imp id fun h => ⟨h.1, h.2.kept hw fun a ha₁ ha₂ => ?_⟩, hmax⟩
      exact (hapart k j (Nat.le_refl k) (by omega) h₂).symm.super h.1 ha₁ ha₂
    refine runs_post (ih (k + 1) y (by omega) (hw.heap hx)
      (fun j h₁ h₂ => by rw [hparts]; exact hroom' j h₁ h₂)
      (fun i j h₁ h₂ h₃ => by rw [hparts]; exact hapart i j (by omega) h₂ h₃)) fun r z hz => ?_
    rw [hparts] at hz
    obtain ⟨hr, hw', hmagic'⟩ := hz
    refine ⟨hr, (hw.trans hw').mono fun a ha => ?_, fun j h₁ h₂ hne => ?_⟩
    · cases ha with
      | inl ha => exact ⟨k, Nat.le_refl k, by omega, ha⟩
      | inr ha =>
        obtain ⟨j, h₁, h₂, hj⟩ := ha
        exact ⟨j, by omega, h₂, hj⟩
    · by_cases hjk : j = k
      · subst hjk
        refine (hmagic hne).kept hw' fun a h₁ h₂ hcov => ?_
        obtain ⟨i, hi₁, hi₂, hcov⟩ := hcov
        exact (hapart j i (Nat.le_refl j) (by omega) hi₂).super ((hroom j (Nat.le_refl j) (by omega)).two hne) h₁ h₂ hcov
      · exact hmagic' j (by omega) h₂ hne

/-- With `part_idx` at twelve no partition is looked at. -/
theorem formatChannels_done : ∀ (cs : List Nat) (x : Ide), formatChannels 12 cs x = .ok ((), x) := by
  intro cs
  induction cs with
  | nil =>
    intro x
    rfl
  | cons c cs ih =>
    intro x
    exact ih x

/-! ## What is registered -/

theorem slots_nodup (hd : Hd) (i n : Nat) : (slots hd i n).Nodup := by
  unfold slots
  refine List.Nodup.map (fun a b hab => ?_) List.nodup_range
  simpa using hab

theorem mem_slots {i n : Nat} {r : Hd × Nat} : r ∈ slots hd i n ↔ r.1 = hd ∧ i ≤ r.2 ∧ r.2 < i + n := by
  unfold slots
  rw [List.mem_map]
  constructor
  · intro h
    obtain ⟨k, hk, rfl⟩ := h
    rw [List.mem_range] at hk
    exact ⟨rfl, by simp, by simpa using hk⟩
  · intro h
    obtain ⟨h₁, h₂, h₃⟩ := h
    exact ⟨r.2 - i, List.mem_range.2 (by omega), Prod.ext h₁.symm (by show i + (r.2 - i) = r.2; omega)⟩

/-- The slots of one disk. -/
def diskSlots (prims logs : Nat → List Part) (c : Nat) : List (Hd × Nat) :=
  slots (c, 1) 0 (prims c).length ++ slots (c, 1) 4 (logs c).length

theorem diskSlots_fst {c : Nat} {r : Hd × Nat} (h : r ∈ diskSlots prims logs c) : r.1 = (c, 1) := by
  unfold diskSlots at h
  rw [List.mem_append, mem_slots, mem_slots] at h
  cases h with
  | inl h => exact h.1
  | inr h => exact h.1

theorem diskSlots_nodup {c : Nat} (h : (prims c).length ≤ 4) : (diskSlots prims logs c).Nodup := by
  unfold diskSlots
  refine List.nodup_append.2 ⟨slots_nodup .., slots_nodup .., fun r h₁ r' h₂ he => ?_⟩
  subst he
  rw [mem_slots] at h₁ h₂
  omega

theorem filter_diskSlots {c : Nat} : ∀ cs : List Nat, cs.Nodup → c ∈ cs →
    (cs.flatMap (diskSlots prims logs)).filter (fun r => r.1 = (c, 1)) = diskSlots prims logs c := by
  have hall : ∀ c', (diskSlots prims logs c').filter (fun r => r.1 = (c, 1)) =
      if c' = c then diskSlots prims logs c else [] := by
    intro c'
    by_cases hc : c' = c
    · subst hc
      rw [if_pos rfl, List.filter_eq_self]
      exact fun r hr => decide_eq_true (diskSlots_fst hr)
    · rw [if_neg hc, List.filter_eq_nil_iff]
      intro r hr
      rw [diskSlots_fst hr]
      simp [hc]
  have hnone : ∀ cs : List Nat, c ∉ cs → (cs.flatMap (diskSlots prims logs)).filter (fun r => r.1 = (c, 1)) = [] := by
    intro cs hc
    rw [List.filter_eq_nil_iff]
    intro r hr
    obtain ⟨c', hc', hr⟩ := List.mem_flatMap.1 hr
    rw [diskSlots_fst hr]
    have hne : c' ≠ c := fun he => hc (he ▸ hc')
    simp [hne]
  intro cs
  induction cs with
  | nil =>
    intro _ hc
    cases hc
  | cons c' cs ih =>
    intro hnd hc
    obtain ⟨hnot, hnd⟩ := List.nodup_cons.1 hnd
    rw [List.flatMap_cons, List.filter_append, hall]
    by_cases he : c' = c
    · subst he
      rw [if_pos rfl, hnone cs hnot, List.append_nil]
    · rw [if_neg he, List.nil_append]
      exact ih hnd (List.mem_of_ne_of_mem (fun h => he h.symm) hc)

theorem map_slots {f : Nat → Part} {i : Nat} {l : List Part} (h : ∀ k p, l[k]? = some p → f (i + k) = p) :
    (slots hd i l.length).map (fun r => f r.2) = l := by
  unfold slots
  rw [List.map_map]
  refine List.ext_getElem (by simp) fun k h₁ h₂ => ?_
  rw [List.getElem_map, List.getElem_range]
  exact h k _ (List.getElem?_eq_getElem h₂)

theorem map_diskSlots {c : Nat} {parts : Hd → Nat → Part} (hp : ∀ i p, (prims c)[i]? = some p → parts (c, 1) i = p)
    (hl : ∀ i p, (logs c)[i]? = some p → parts (c, 1) (4 + i) = p) :
    (diskSlots prims logs c).map (fun r => parts r.1 r.2) = prims c ++ logs c := by
  have hfst : (diskSlots prims logs c).map (fun r => parts r.1 r.2) =
      (diskSlots prims logs c).map (fun r => parts (c, 1) r.2) :=
    List.map_congr_left fun r hr => by rw [diskSlots_fst hr]
  rw [hfst]
  unfold diskSlots
  rw [List.map_append, map_slots fun k p hk => by rw [Nat.zero_add]; exact hp k p hk, map_slots hl]

/-- What is on the list when nothing was. -/
theorem Registers.list_perm (h : Registers prims logs cs x y) (hnil : x.partitionList = []) :
    y.partitionList.Perm (cs.flatMap (diskSlots prims logs)) := by
  obtain ⟨new, hnew, hperm⟩ := h.list
  rw [hnew, hnil, List.nil_append]
  exact hperm

theorem Registers.registered (h : Registers prims logs cs x y) (hnil : x.partitionList = []) (hnd : cs.Nodup) {c : Nat}
    (hc : c ∈ cs) :
    ((y.partitionList.filter fun r => r.1 = (c, 1)).map fun r => y.parts r.1 r.2).Perm (prims c ++ logs c) := by
  have hperm := ((h.list_perm hnil).filter fun r => r.1 = (c, 1)).map fun r => y.parts r.1 r.2
  rw [filter_diskSlots cs hnd hc, map_diskSlots (h.prim c hc) (h.logic c hc)] at hperm
  exact hperm

theorem Registers.once (h : Registers prims logs cs x y) (hnil : x.partitionList = []) (hnd : cs.Nodup)
    (hfit : ∀ c ∈ cs, Fits (prims c) (logs c)) : y.partitionList.Nodup := by
  refine (h.list_perm hnil).nodup_iff.2 (List.nodup_flatMap.2 ⟨fun c hc => ?_, ?_⟩)
  · have := (hfit c hc).prims
    exact diskSlots_nodup (by omega)
  · refine hnd.imp fun hne r h₁ h₂ => hne ?_
    have heq := (diskSlots_fst h₁).symm.trans (diskSlots_fst h₂)
    cases heq
    rfl

theorem Registers.only (h : Registers prims logs cs x y) (hnil : x.partitionList = []) :
    ∀ r ∈ y.partitionList, ∃ c ∈ cs, r.1 = (c, 1) := by
  intro r hr
  obtain ⟨c, hc, hr⟩ := List.mem_flatMap.1 ((h.list_perm hnil).mem_iff.1 hr)
  exact ⟨c, hc, diskSlots_fst hr⟩

/-- An element of `struct disk` is zero, or one of the partitions that the tables give. -/
theorem Registers.slot (h : Registers prims logs cs x y) (hzero : ∀ hd i, x.parts hd i = ⟨0, 0⟩) {c : Nat} (hc : c ∈ cs)
    (hfit : Fits (prims c) (logs c)) (j : Nat) : (y.parts (c, 1) j).secCnt = 0 ∨
    ∃ m, (prims c ++ logs c)[m]? = some (y.parts (c, 1) j) ∧ (j < 4 ∧ m = j ∧ j < (prims c).length ∨
      4 ≤ j ∧ m = (prims c).length + (j - 4)) := by
  have hp := hfit.prims
  by_cases hprim : j < (prims c).length
  · have hval := h.prim c hc j _ (List.getElem?_eq_getElem hprim)
    refine .inr ⟨j, ?_, .inl ⟨by omega, rfl, hprim⟩⟩
    rw [hval, List.getElem?_append_left hprim]
    exact List.getElem?_eq_getElem hprim
  · by_cases hlog : 4 ≤ j ∧ j < 4 + (logs c).length
    · have hlt : j - 4 < (logs c).length := by omega
      have hval := h.logic c hc (j - 4) _ (List.getElem?_eq_getElem hlt)
      rw [show 4 + (j - 4) = j by omega] at hval
      refine .inr ⟨(prims c).length + (j - 4), ?_, .inr ⟨hlog.1, rfl⟩⟩
      rw [hval, List.getElem?_append_right (Nat.le_add_right ..), Nat.add_sub_cancel_left]
      exact List.getElem?_eq_getElem hlt
    · rw [h.rest (c, 1) j fun c' _ he => by
        cases he
        omega, hzero]
      exact .inl rfl

/-- Every partition has its place in `struct disk`. -/
theorem Registers.place (h : Registers prims logs cs x y) {c : Nat} (hc : c ∈ cs) (hfit : Fits (prims c) (logs c))
    (hp : p ∈ prims c ++ logs c) : ∃ j, j < 12 ∧ y.parts (c, 1) j = p := by
  have hprims := hfit.prims
  have hlogs := hfit.logs
  cases List.mem_append.1 hp with
  | inl hp =>
    obtain ⟨i, hi⟩ := List.getElem?_of_mem hp
    have hlt := (List.getElem?_eq_some_iff.1 hi).1
    exact ⟨i, by omega, h.prim c hc i p hi⟩
  | inr hp =>
    obtain ⟨i, hi⟩ := List.getElem?_of_mem hp
    have hlt := (List.getElem?_eq_some_iff.1 hi).1
    exact ⟨4 + i, by omega, h.logic c hc i p hi⟩

theorem Registers.roomy (h : Registers prims logs cs x y) (hzero : ∀ hd i, x.parts hd i = ⟨0, 0⟩) {c : Nat} (hc : c ∈ cs)
    (hfit : Fits (prims c) (logs c)) {disk : Bytes}
    (hsize : ∀ p ∈ prims c ++ logs c, 613 ≤ p.secCnt ∨ (2 ≤ p.secCnt ∧ HasMagic disk p))
    (hwithin : ∀ p ∈ prims c ++ logs c, p.startLba + p.secCnt ≤ maxLba + 1) (j : Nat) : Roomy disk (y.parts (c, 1) j) := by
  intro hne
  obtain ⟨m, hm, -⟩ := (h.slot hzero hc hfit j).resolve_left hne
  have hmem := List.mem_of_getElem? hm
  exact ⟨hsize _ hmem, hwithin _ hmem⟩

theorem Registers.apart (h : Registers prims logs cs x y) (hzero : ∀ hd i, x.parts hd i = ⟨0, 0⟩) {c : Nat} (hc : c ∈ cs)
    (hfit : Fits (prims c) (logs c))
    (hpair : (prims c ++ logs c).Pairwise fun p q => p.startLba + p.secCnt ≤ q.startLba ∨ q.startLba + q.secCnt ≤ p.startLba)
    {i j : Nat} (hij : i < j) : Apart (y.parts (c, 1) i) (y.parts (c, 1) j) := by
  intro hi hj
  obtain ⟨m, hm, hm'⟩ := (h.slot hzero hc hfit i).resolve_left hi
  obtain ⟨n, hn, hn'⟩ := (h.slot hzero hc hfit j).resolve_left hj
  obtain ⟨hm₁, hm₂⟩ := List.getElem?_eq_some_iff.1 hm
  obtain ⟨hn₁, hn₂⟩ := List.getElem?_eq_some_iff.1 hn
  have hlt : m < n := by omega
  have hR := List.pairwise_iff_getElem.1 hpair m n hm₁ hn₁ hlt
  rwa [hm₂, hn₂] at hR

/-! ## The machine -/

/-- The state when `ide_init` is called. -/
structure Boot (x : Ide) : Prop where
  base : x.extLbaBase = 0
  parts : ∀ hd i, x.parts hd i = ⟨0, 0⟩
  heap : x.HeapOk

/-- The machines on which no global gets in the way: the scanned disks fit `struct disk`, at most one has an
extended partition, and only the first has partitions that are still to be formatted. -/
structure Suits (frames : Nat) (prims logs : Nat → List Part) (cs : List Nat) (x : Ide) : Prop extends
    Machine frames prims logs cs x where
  size : ∀ p ∈ prims 0 ++ logs 0, 613 ≤ p.secCnt ∨ (2 ≤ p.secCnt ∧ HasMagic (x.disk (0, 1)) p)
  made : ∀ c ∈ cs, c ≠ 0 → ∀ p ∈ prims c ++ logs c, HasMagic (x.disk (c, 1)) p

theorem ideInit_registers {hdCnt : Nat} (hb : Boot x) (hcnt : 0 < hdCnt ∧ hdCnt ≤ 4)
    (hm : Machine frames prims logs (List.range (channelCnt hdCnt)) x) :
    runs (fun _ => False) (ideInit frames hdCnt)
      (fun _ y => Registers prims logs (List.range (channelCnt hdCnt)) { x with partitionList := [] } y) x := by
  have hch : channelCnt hdCnt ≤ 2 := by
    unfold channelCnt divRoundUp
    omega
  unfold ideInit
  refine runs_guard_bind (fun hno => absurd hcnt.1 hno) fun _ => ?_
  rw [runs_change_bind]
  refine runs_guard_bind (fun hno => absurd hch hno) fun _ => ?_
  exact initChannels_registers _ { x with partitionList := [] } ⟨hm.distinct, hm.present, hm.tables, hm.fits, hm.first, hm.one⟩
    hb.heap

theorem searchFilesystem_wrote {hdCnt : Nat} {S : Nat → Prop} {Q : Bytes → Prop} (hcnt : 0 < hdCnt) (hle : hdCnt ≤ 4)
    (hx : x.HeapOk) (h : ∀ x₁, x₁.parts = x.parts → x₁.disk = x.disk → x₁.HeapOk →
      runs (fun _ => False) (formatDisk (0, 1) 12 0 0) (fun r y => r = 12 ∧ Wrote (0, 1) S x₁ y ∧ Q (y.disk (0, 1))) x₁) :
    runs (fun _ => False) (searchFilesystem hdCnt) (fun _ y => Wrote (0, 1) S x y ∧ Q (y.disk (0, 1))) x := by
  obtain ⟨n, hn⟩ : ∃ n, channelCnt hdCnt = n + 1 := by
    refine ⟨channelCnt hdCnt - 1, ?_⟩
    unfold channelCnt divRoundUp
    omega
  have hmalloc := exec_sysMalloc (s := x.mem) (d := ⟨x.disk (0, 1), x.heap⟩) none (hx _ (Nat.le_refl _))
  unfold searchFilesystem
  rw [runs_bind_ok (onDisk_run hmalloc)]
  have hfmt : runs (fun _ => False) (formatChannels 0 (List.range (channelCnt hdCnt)))
      (fun _ y => Wrote (0, 1) S x y ∧ Q (y.disk (0, 1))) { x with
        mem := x.mem, disk := update x.disk (0, 1) (x.disk (0, 1)), heap := (Dev.alloc ⟨x.disk (0, 1), x.heap⟩ none).heap } := by
    rw [hn, List.range_succ_eq_map]
    unfold formatChannels
    refine runs_seq (h _ rfl (update_eq_self ..) (HeapOk.alloc (d := ⟨x.disk (0, 1), x.heap⟩) hx none)) fun r y hy => ?_
    obtain ⟨rfl, hw, hq⟩ := hy
    rw [runs_ok (formatChannels_done _ y)]
    refine ⟨⟨hw.parts, hw.list, fun _ => hw.heap (HeapOk.alloc (d := ⟨x.disk (0, 1), x.heap⟩) hx none), ?_, ?_⟩, hq⟩
    · intro hd' hne
      rw [hw.others hd' hne]
      exact update_of_ne hne ..
    · intro a ha
      rw [hw.disk a ha]
      exact congrFun (congrFun (update_eq_self (0, 1) x.disk) (0, 1)) a
  refine runs_seq hfmt fun _ y hy => ?_
  refine runs_post (sysFree_heapOnly (x := y) _) fun _ z hz => ?_
  rw [hz.eq]
  refine ⟨⟨hy.1.parts, hy.1.list, fun hx' => ?_, hy.1.others, hy.1.disk⟩, hy.2⟩
  rw [← hz.eq]
  exact hz.heap (hy.1.heap hx')

theorem searchFilesystem_independent {hdCnt : Nat} (hb : Boot x) (hcnt : 0 < hdCnt ∧ hdCnt ≤ 4)
    (hm : Suits frames prims logs (List.range (channelCnt hdCnt)) x)
    (hr : Registers prims logs (List.range (channelCnt hdCnt)) { x with partitionList := [] } y) :
    runs (fun _ => False) (searchFilesystem hdCnt)
      (fun _ z => Independent prims logs (List.range (channelCnt hdCnt)) z) y := by
  have h0 : 0 ∈ List.range (channelCnt hdCnt) := by
    rw [List.mem_range]
    unfold channelCnt divRoundUp
    omega
  have hdisk : y.disk = x.disk := hr.disk
  obtain ⟨depth, -, ht⟩ := hm.tables 0 h0
  have hfit := hm.fits 0 h0
  refine runs_post (searchFilesystem_wrote (S := fun a => ∃ j, 0 ≤ j ∧ j < 12 ∧ (y.parts (0, 1) j).covers a) (Q := fun disk => ∀ j, 0 ≤ j → j < 12 → (y.parts (0, 1) j).secCnt ≠ 0 →
    HasMagic disk (y.parts (0, 1) j)) hcnt.1 hcnt.2 (hr.heap hb.heap) fun y₁ hparts hdisk₁ hheap => ?_) fun _ z hz => ?_
  · have hroomy : ∀ j, Roomy (y₁.disk (0, 1)) (y₁.parts (0, 1) j) := by
      rw [hparts, hdisk₁, hdisk]
      exact hr.roomy hb.parts h0 hfit hm.size ht.within
    have hapart : ∀ i j, i < j → Apart (y₁.parts (0, 1) i) (y₁.parts (0, 1) j) := by
      rw [hparts]
      exact fun i j hij => hr.apart hb.parts h0 hfit ht.apart hij
    have hfmt := formatDisk_magic 12 0 y₁ rfl hheap (fun j _ _ => hroomy j) fun i j _ hij _ => hapart i j hij
    rw [hparts] at hfmt
    exact hfmt
  · obtain ⟨hw, hmagic⟩ := hz
    constructor
    case registered =>
      intro c hc
      rw [hw.list, hw.parts]
      exact hr.registered rfl hm.distinct hc
    case once =>
      rw [hw.list]
      exact hr.once rfl hm.distinct hm.fits
    case only =>
      rw [hw.list]
      exact hr.only rfl
    case magic =>
      intro c hc p hp
      by_cases hc0 : c = 0
      · subst hc0
        obtain ⟨j, hj, rfl⟩ := hr.place hc hfit hp
        have := ht.pos _ hp
        exact hmagic j (Nat.zero_le j) hj (by omega)
      · have hother : z.disk (c, 1) = x.disk (c, 1) := by
          rw [hw.others (c, 1) fun he => hc0 (congrArg Prod.fst he), hdisk]
        rw [hother]
        exact hm.made c hc hc0 p hp

/-! ## The mount -/

/-- A program that leaves the disk as it is. -/
def Still {α : Type} (m : K α) : Prop := ∀ s d, ends m (fun _ _ d' => d'.disk = d.disk) s d

theorem Still.bind {α β : Type} {m : K α} {f : α → K β} (hm : Still m) (hf : ∀ a, Still (f a)) : Still (m >>= f) := by
  intro s d
  refine wp_bind.2 (wp_mono (hm s d) fun a s₁ d₁ h₁ => ?_)
  exact wp_mono (hf a s₁ d₁) fun _ _ _ h₂ => h₂.trans h₁

theorem Still.pure {α : Type} (a : α) : Still (pure a : K α) := fun _ _ => rfl

theorem Still.readM {α : Type} (f : Mem → α) : Still (readM f) := fun _ _ => rfl

theorem Still.modifyM (f : Mem → Mem) : Still (modifyM f) := fun _ _ => rfl

theorem Still.stop {α : Type} (h : Halt) : Still (stop h : K α) := fun _ _ => trivial

theorem Still.assert (c : Prop) [Decidable c] : Still (assert c) := fun _ _ => wp_assert_weak fun _ => rfl

theorem Still.sysMalloc (o : Option Pid) : Still (sysMalloc o) := by
  intro s d
  cases hok : d.heap.ok d.heap.brk with
  | true => exact (wp_ok (exec_sysMalloc o hok)).2 rfl
  | false =>
    unfold ends wp Kernel.sysMalloc
    simp only [exec_bind, exec_perform, device, hok]
    rfl

theorem Still.sysMallocNN (o : Option Pid) : Still (sysMallocNN o) := by
  refine Still.bind (Still.sysMalloc o) fun r => ?_
  cases r with
  | some p => exact Still.pure p
  | none => exact Still.stop .ub

theorem Still.sysMallocOrPanic : Still sysMallocOrPanic := by
  refine Still.bind (Still.sysMalloc none) fun r => ?_
  cases r with
  | some p => exact Still.pure ()
  | none => exact Still.stop .panic

theorem Still.sysFree (o : Option Pid) (p : Ptr) : Still (sysFree o p) := fun _ _ => rfl

theorem Still.ideRead (lba : Nat) (buf : Bytes) (n : Nat) : Still (ideRead lba buf n) := by
  refine Still.bind (Still.assert _) fun _ => ?_
  refine Still.bind (Still.assert _) fun _ => ?_
  refine Still.bind (Still.assert _) fun _ => ?_
  intro s d
  rfl

theorem Still.mountPartition (startLba secCnt : Nat) : Still (mountPartition startLba secCnt) := by
  refine Still.bind (Still.sysMallocNN none) fun _ => ?_
  refine Still.bind Still.sysMallocOrPanic fun _ => ?_
  refine Still.bind (Still.ideRead _ _ _) fun _ => ?_
  refine Still.bind Still.sysMallocOrPanic fun _ => ?_
  refine Still.bind (Still.ideRead _ _ _) fun _ => ?_
  refine Still.bind Still.sysMallocOrPanic fun _ => ?_
  refine Still.bind (Still.ideRead _ _ _) fun _ => ?_
  exact Still.modifyM _

theorem Still.derefInode (p : Ptr) : Still (derefInode p) := by
  refine Still.bind (Still.readM _) fun o => ?_
  cases o with
  | some x => exact Still.pure x
  | none => exact Still.stop .ub

theorem Still.openRootDir (cur : Pid) : Still (openRootDir cur) := by
  refine Still.bind (Still.readM _) fun no => ?_
  refine Still.bind ?_ fun p => Still.modifyM _
  refine Still.bind (Still.readM _) fun r => ?_
  cases r with
  | some p =>
    refine Still.bind ?_ fun _ => Still.pure p
    refine Still.bind (Still.derefInode p) fun x => Still.modifyM _
  | none =>
    refine Still.bind ?_ fun pos => ?_
    · refine Still.bind (Still.assert _) fun _ => ?_
      exact Still.bind (Still.readM _) fun _ => Still.pure _
    refine Still.bind (Still.sysMallocNN none) fun _ => ?_
    refine Still.bind (Still.sysMallocNN _) fun _ => ?_
    refine Still.bind (Still.ideRead _ _ _) fun _ => ?_
    refine Still.bind (Still.modifyM _) fun _ => ?_
    exact Still.bind (Still.sysFree _ _) fun _ => Still.pure _

/-- Neither what is registered nor a disk has changed. -/
structure Same (x y : Ide) : Prop where
  parts : y.parts = x.parts
  list : y.partitionList = x.partitionList
  disk : y.disk = x.disk

theorem Same.trans (h : Same x y) (h' : Same y z) : Same x z :=
  ⟨h'.parts.trans h.parts, h'.list.trans h.list, h'.disk.trans h.disk⟩

theorem Still.same {α : Type} {m : K α} (h : Still m) : runs (fun _ => True) (onDisk hd m) (fun _ y => Same x y) x := by
  have hend := h x.mem ⟨x.disk hd, x.heap⟩
  unfold ends wp at hend
  unfold runs onDisk
  cases he : exec device m x.mem ⟨x.disk hd, x.heap⟩ with
  | error e => trivial
  | ok r =>
    obtain ⟨a, s, d⟩ := r
    rw [he] at hend
    refine ⟨rfl, rfl, ?_⟩
    show update x.disk hd d.disk = x.disk
    rw [hend]
    exact update_eq_self hd x.disk

theorem mountDefault_same (cur : Pid) : runs (fun _ => True) (mountDefault cur) (fun _ y => Same x y) x := by
  unfold mountDefault
  rw [runs_read_bind]
  refine runs_ite (fun _ => ?_) fun _ => trivial
  rw [runs_read_bind]
  refine runs_seq (Still.mountPartition _ _).same fun _ y hy => ?_
  refine runs_seq (Still.openRootDir cur).same fun _ z hz => ?_
  exact (hy.trans hz).trans ⟨rfl, rfl, rfl⟩

theorem Independent.same (h : Independent prims logs cs x) (hs : Same x y) : Independent prims logs cs y where
  registered c hc := by
    rw [hs.list, hs.parts]
    exact h.registered c hc
  once := by
    rw [hs.list]
    exact h.once
  only := by
    rw [hs.list]
    exact h.only
  magic c hc p hp := by
    rw [hs.disk]
    exact h.magic c hc p hp

/-- **The disks.** On these machines `ide_init` and the search for file systems return, and then, and when
`filesys_init` returns, every partition of every scanned disk is registered once and has a super block. -/
theorem filesysInit_independent (frames hdCnt : Nat) (cur : Pid) (prims logs : Nat → List Part) (x : Ide) (hb : Boot x)
    (hcnt : 0 < hdCnt ∧ hdCnt ≤ 4) (hm : Suits frames prims logs (List.range (channelCnt hdCnt)) x) :
    (∃ y, (do ideInit frames hdCnt; searchFilesystem hdCnt : I Unit) x = .ok ((), y) ∧
      Independent prims logs (List.range (channelCnt hdCnt)) y) ∧
    ∀ z, (do ideInit frames hdCnt; filesysInit hdCnt cur : I Unit) x = .ok ((), z) →
      Independent prims logs (List.range (channelCnt hdCnt)) z := by
  obtain ⟨_, y, hy, hr⟩ := returns_of_runs (ideInit_registers hb hcnt hm.toMachine)
  obtain ⟨_, z, hz, hind⟩ := returns_of_runs (searchFilesystem_independent hb hcnt hm hr)
  refine ⟨⟨z, by rw [bind_ok hy]; exact hz, hind⟩, fun w hw => ?_⟩
  rw [bind_ok hy] at hw
  unfold filesysInit at hw
  rw [bind_ok hz] at hw
  have hsame := runs_of_ok (mountDefault_same cur) hw
  exact hind.same hsame

end

/-! ## What happens elsewhere -/

/-- The search for file systems writes on no disk but the second one of the first channel. -/
theorem searchFilesystem_first (hdCnt : Nat) (x : Ide) : runs (fun _ => True) (searchFilesystem hdCnt)
    (fun _ y => ∀ hd, hd ≠ (0, 1) → y.disk hd = x.disk hd) x := by
  have hon : ∀ {α : Type} (hd : Hd) (m : K α) (x : Ide), runs (fun _ => True) (onDisk hd m)
      (fun _ y => ∀ hd', hd' ≠ hd → y.disk hd' = x.disk hd') x := by
    intro α hd m x
    unfold runs onDisk
    cases exec device m x.mem ⟨x.disk hd, x.heap⟩ with
    | error e => trivial
    | ok r => exact fun hd' hne => update_of_ne hne ..
  have hpart : ∀ (hd : Hd) (p : Part) (x : Ide), runs (fun _ => True) (formatPart hd p)
      (fun _ y => ∀ hd', hd' ≠ hd → y.disk hd' = x.disk hd') x := by
    intro hd p x
    unfold formatPart
    refine runs_when (fun _ => ?_) fun _ _ _ => rfl
    refine runs_seq (hon hd _ x) fun _ y hy => ?_
    refine runs_when (fun _ => ?_) fun _ => hy
    exact runs_post (hon hd _ y) fun _ z hz hd' hne => (hz hd' hne).trans (hy hd' hne)
  have hdisk : ∀ (hd : Hd) (n partIdx part : Nat) (x : Ide), runs (fun _ => True) (formatDisk hd n partIdx part)
      (fun r y => r = partIdx + n ∧ ∀ hd', hd' ≠ hd → y.disk hd' = x.disk hd') x := by
    intro hd n
    induction n with
    | zero => exact fun partIdx part x => ⟨rfl, fun _ _ => rfl⟩
    | succ n ih =>
      intro partIdx part x
      unfold formatDisk
      simp only
      rw [runs_read_bind]
      refine runs_seq (hpart hd _ x) fun _ y hy => ?_
      refine runs_post (ih (partIdx + 1) _ y) fun r z hz => ⟨by omega, fun hd' hne => ?_⟩
      exact (hz.2 hd' hne).trans (hy hd' hne)
  have hchannels : ∀ x : Ide, runs (fun _ => True) (formatChannels 0 (List.range (channelCnt hdCnt)))
      (fun _ y => ∀ hd, hd ≠ (0, 1) → y.disk hd = x.disk hd) x := by
    intro x
    cases channelCnt hdCnt with
    | zero => exact fun _ _ => rfl
    | succ n =>
      rw [List.range_succ_eq_map]
      unfold formatChannels
      refine runs_seq (hdisk (0, 1) 12 0 0 x) fun r y hy => ?_
      obtain ⟨rfl, hy⟩ := hy
      rw [Nat.zero_add, runs_ok (formatChannels_done _ y)]
      exact hy
  unfold searchFilesystem
  refine runs_seq (hon (0, 1) _ x) fun r y hy => ?_
  cases r with
  | none => trivial
  | some sbBuf =>
    refine runs_seq (hchannels y) fun _ z hz => ?_
    exact runs_post (hon (0, 1) _ z) fun _ w hw hd hne => ((hw hd hne).trans (hz hd hne)).trans (hy hd hne)

/-- An entry of a partition table at offset `o`. -/
def putEntry (b : Bytes) (o : Nat) (fsType : UInt8) (startLba secCnt : Nat) : Bytes :=
  splice (splice (upd b (o + 4) fsType) (o + 8) (words fun _ => startLba) 4) (o + 12) (words fun _ => secCnt) 4

/-- A primary partition, and a logical one in the extended partition from sector 100 on. -/
def sampleDisk : Bytes :=
  putEntry (putEntry (putEntry zeros 446 0x83 2000 1000) 462 0x05 100 1500) (51200 + 446) 0x83 1 1000

/-- Four disks, all alike. -/
def sampleMachine : Ide where
  extLbaBase := 0
  pNo := 0
  lNo := 0
  parts := fun _ _ => ⟨0, 0⟩
  names := fun _ _ => []
  partitionList := []
  present := fun _ => true
  disk := fun _ => sampleDisk
  mem := blankMem
  heap := ⟨0, fun _ => true, []⟩

theorem sampleDisk_tables : Tables sampleDisk 1 [⟨2000, 1000⟩] [⟨101, 1000⟩] where
  prims := by decide +kernel
  logs := .inr ⟨100, by decide +kernel, by decide +kernel⟩
  pos := by decide
  within := by decide
  apart := by decide

/-- The first channel alone: both partitions are registered and formatted. -/
theorem filesysInit_independent_two : ∃ y, (do ideInit 2 2; searchFilesystem 2 : I Unit) sampleMachine = .ok ((), y) ∧
    Independent (fun _ => [⟨2000, 1000⟩]) (fun _ => [⟨101, 1000⟩]) [0] y := by
  have hb : Boot sampleMachine := ⟨rfl, fun _ _ => rfl, fun _ _ => rfl⟩
  have hm : Suits 2 (fun _ => [⟨2000, 1000⟩]) (fun _ => [⟨101, 1000⟩]) [0] sampleMachine := by
    constructor
    case toMachine =>
      refine ⟨by decide, fun _ _ => ⟨rfl, rfl⟩, fun _ _ => ⟨1, by decide, sampleDisk_tables⟩,
        fun _ _ => ⟨by decide, by decide⟩, .inl rfl, by decide⟩
    case size => exact fun p hp => .inl (by
      have hall : ∀ p ∈ ([⟨2000, 1000⟩, ⟨101, 1000⟩] : List Part), 613 ≤ p.secCnt := by decide
      exact hall p hp)
    case made =>
      intro c hc hne
      exact absurd (List.mem_singleton.1 hc) hne
  exact (filesysInit_independent 2 2 0 _ _ sampleMachine hb (by decide) hm).1

/-- Two channels: the extended partition of the second one is looked for at sector 100 + 100, where there is no table. -/
theorem second_disk_lost : (∀ hd, Tables (sampleMachine.disk hd) 1 [⟨2000, 1000⟩] [⟨101, 1000⟩]) ∧
    ∃ y, ideInit 2 4 sampleMachine = .ok ((), y) ∧ y.partitionList = [((0, 1), 0), ((0, 1), 4), ((1, 1), 0)] := by
  refine ⟨fun _ => sampleDisk_tables, ?_⟩
  have hrun : (match ideInit 2 4 sampleMachine with
      | .ok (_, y) => decide (y.partitionList = [((0, 1), 0), ((0, 1), 4), ((1, 1), 0)])
      | .error _ => false) = true := by decide +kernel
  split at hrun
  · rename_i y he
    exact ⟨y, he, of_decide_eq_true hrun⟩
  · cases hrun

end Enix.Device
