import Enix.Device.Ide
import Enix.Fs.FormatLayout

/-!
# What the scan registers (`device/ide.c:294-477`)

`Tables` says what the tables of a disk give: the primary partitions of the first
sector, and the logical ones of the tables that hang on its extended partition, at
addresses relative to the start of that one. `Added` says that a stretch of the scan
has registered some primary and some logical partitions of one disk.

* `scan_logicals`: the tables behind the first one, by induction on their depth.
* `scan_disk`: a whole disk, from `ext_lba_base == 0` or without an extended partition.
* `initChannels_registers`: all channels.
-/
set_option autoImplicit false

namespace Enix.Device
open Enix.Core Enix.Kernel Enix.Fs Function

/-! ## What tables give -/

def sector (disk : Bytes) (lba : Nat) : Bytes := splice zeros 0 (shift disk (512 * lba)) 512

/-- The partitions of one entry behind another. -/
def concat (f : Entry → Option (List Part)) : List Entry → Option (List Part)
  | [] => some []
  | p :: ps => do
    let a ← f p
    let b ← concat f ps
    some (a ++ b)

/-- The logical partitions of the tables from sector `lba` on, when the extended
partition starts at `base`. -/
def logicals (disk : Bytes) (base : Nat) : (depth : Nat) → (lba : Nat) → Option (List Part)
  | 0, _ => none
  | depth + 1, lba =>
    if lba = 0 ∨ maxLba < lba then none
    else concat (fun p => if p.fsType = 0x05 then logicals disk base depth (base + p.startLba)
      else if p.fsType ≠ 0 then some [⟨lba + p.startLba, p.secCnt⟩] else some []) (partitionTable (sector disk lba))

/-- The starts of the extended partitions. -/
def extended (ps : List Entry) : List Nat := (ps.filter fun p => p.fsType = 0x05).map (·.startLba)

def primaries (ps : List Entry) : List Part :=
  (ps.filter fun p => p.fsType ≠ 0x05 ∧ p.fsType ≠ 0).map fun p => ⟨p.startLba, p.secCnt⟩

/-- Valid tables: one extended partition at most, and disjoint partitions on the disk. -/
structure Tables (disk : Bytes) (depth : Nat) (ps ls : List Part) : Prop where
  prims : ps = primaries (partitionTable (sector disk 0))
  logs : (extended (partitionTable (sector disk 0)) = [] ∧ ls = []) ∨
    ∃ base, extended (partitionTable (sector disk 0)) = [base] ∧ logicals disk base depth base = some ls
  pos : ∀ p ∈ ps ++ ls, 0 < p.secCnt
  within : ∀ p ∈ ps ++ ls, p.startLba + p.secCnt ≤ maxLba + 1
  apart : (ps ++ ls).Pairwise fun p q => p.startLba + p.secCnt ≤ q.startLba ∨ q.startLba + q.secCnt ≤ p.startLba

/-! ## What the scan does -/

def slots (hd : Hd) (i n : Nat) : List (Hd × Nat) := (List.range n).map fun k => (hd, i + k)

def Ide.HeapOk (x : Ide) : Prop := ∀ n, x.heap.brk ≤ n → x.heap.ok n = true

/-- The primary partitions `ps` and the logical ones `ls` of `hd` have been registered. -/
structure Added (hd : Hd) (ps ls : List Part) (x y : Ide) : Prop where
  disk : y.disk = x.disk
  present : y.present = x.present
  heap : x.HeapOk → y.HeapOk
  pNo : y.pNo = x.pNo + ps.length
  lNo : y.lNo = x.lNo + ls.length
  list : ∃ new, y.partitionList = x.partitionList ++ new ∧
    new.Perm (slots hd x.pNo ps.length ++ slots hd (4 + x.lNo) ls.length)
  prim : ∀ i p, ps[i]? = some p → y.parts hd (x.pNo + i) = p
  logic : ∀ i p, ls[i]? = some p → y.parts hd (4 + x.lNo + i) = p
  rest : ∀ hd' i, (hd' = hd → (i < x.pNo ∨ x.pNo + ps.length ≤ i) ∧ (i < 4 + x.lNo ∨ 4 + x.lNo + ls.length ≤ i)) →
    y.parts hd' i = x.parts hd' i

section
variable {hd : Hd} {ps ls ps' ls' : List Part} {x y z : Ide} {n : Nat}

theorem slots_add (hd : Hd) (i n m : Nat) : slots hd i (n + m) = slots hd i n ++ slots hd (i + n) m := by
  unfold slots
  rw [List.range_add, List.map_append, List.map_map]
  congr 1
  refine List.map_congr_left fun k _ => ?_
  simp [Nat.add_assoc]

theorem Added.refl (hd : Hd) (x : Ide) : Added hd [] [] x x where
  disk := rfl
  present := rfl
  heap h := h
  pNo := rfl
  lNo := rfl
  list := ⟨[], by simp, .refl _⟩
  prim i p h := by simp at h
  logic i p h := by simp at h
  rest _ _ _ := rfl

/-- One stretch after another; the primary partitions stay in `prim_parts`. -/
theorem Added.trans (h : Added hd ps ls x y) (h' : Added hd ps' ls' y z) (hp : x.pNo + ps.length + ps'.length ≤ 4) :
    Added hd (ps ++ ps') (ls ++ ls') x z := by
  have hpNo := h.pNo
  have hlNo := h.lNo
  refine ⟨h'.disk.trans h.disk, h'.present.trans h.present, fun hx => h'.heap (h.heap hx), ?_, ?_, ?_, ?_, ?_, ?_⟩
  · rw [h'.pNo, hpNo, List.length_append, Nat.add_assoc]
  · rw [h'.lNo, hlNo, List.length_append, Nat.add_assoc]
  · obtain ⟨new, hnew, hperm⟩ := h.list
    obtain ⟨new', hnew', hperm'⟩ := h'.list
    refine ⟨new ++ new', by rw [hnew', hnew, List.append_assoc], ?_⟩
    rw [List.length_append, List.length_append, slots_add, slots_add, ← hpNo, Nat.add_assoc 4, ← hlNo]
    refine (hperm.append hperm').trans ?_
    rw [List.perm_iff_count]
    intro r
    simp only [List.count_append]
    omega
  · intro i p hi
    rw [List.getElem?_append] at hi
    by_cases hlt : i < ps.length
    · rw [if_pos hlt] at hi
      rw [h'.rest hd (x.pNo + i) fun _ => by omega]
      exact h.prim i p hi
    · rw [if_neg hlt] at hi
      have hval := h'.prim _ p hi
      rwa [hpNo, show x.pNo + ps.length + (i - ps.length) = x.pNo + i by omega] at hval
  · intro i p hi
    rw [List.getElem?_append] at hi
    by_cases hlt : i < ls.length
    · rw [if_pos hlt] at hi
      rw [h'.rest hd (4 + x.lNo + i) fun _ => by omega]
      exact h.logic i p hi
    · rw [if_neg hlt] at hi
      have hval := h'.logic _ p hi
      rwa [hlNo, show 4 + (x.lNo + ls.length) + (i - ls.length) = 4 + x.lNo + i by omega] at hval
  · intro hd' i hi
    simp only [List.length_append] at hi
    rw [h'.rest hd' i fun he => by have := hi he; omega, h.rest hd' i fun he => by have := hi he; omega]

/-- `ext_lba_base` is no part of what is registered. -/
theorem Added.base (h : Added hd ps ls { x with extLbaBase := n } y) : Added hd ps ls x y := ⟨h.disk, h.present, h.heap,
  h.pNo, h.lNo, h.list, h.prim, h.logic, h.rest⟩

/-! ## The primitives -/

theorem onDisk_run {α : Type} {m : K α} {a : α} {s : Mem} {d : Dev}
    (h : exec device m x.mem ⟨x.disk hd, x.heap⟩ = .ok (a, s, d)) :
    onDisk hd m x = .ok (a, { x with mem := s, disk := update x.disk hd d.disk, heap := d.heap }) := by
  unfold onDisk
  rw [h]

/-- Only the heap is touched. -/
structure HeapOnly (x y : Ide) : Prop where
  eq : y = { x with heap := y.heap }
  heap : x.HeapOk → y.HeapOk

theorem HeapOnly.added (h : HeapOnly x y) (ha : Added hd ps ls y z) : Added hd ps ls x z := by
  obtain ⟨heq, hheap⟩ := h
  rw [heq] at ha
  exact ⟨ha.disk, ha.present, fun hx => ha.heap (heq ▸ hheap hx), ha.pNo, ha.lNo, ha.list, ha.prim, ha.logic, ha.rest⟩

theorem Added.heapOnly (ha : Added hd ps ls x y) (h : HeapOnly y z) : Added hd ps ls x z := by
  obtain ⟨heq, hheap⟩ := h
  rw [heq]
  exact ⟨ha.disk, ha.present, fun hx => heq ▸ hheap (ha.heap hx), ha.pNo, ha.lNo, ha.list, ha.prim, ha.logic, ha.rest⟩

theorem sysMalloc_heapOnly (hx : x.HeapOk) :
    runs (fun _ => False) (onDisk hd (sysMallocNN none)) (fun _ y => HeapOnly x y) x := by
  have he := exec_sysMallocNN (s := x.mem) (d := ⟨x.disk hd, x.heap⟩) none (hx _ (Nat.le_refl _))
  rw [runs_ok (onDisk_run he)]
  refine ⟨?_, fun _ => HeapOk.alloc (d := ⟨x.disk hd, x.heap⟩) hx none⟩
  simp only [Dev.alloc_disk, update_eq_self]

theorem sysFree_heapOnly (p : Ptr) :
    runs (fun _ => False) (onDisk hd (sysFree none p)) (fun _ y => HeapOnly x y) x := by
  have he := exec_sysFree (s := x.mem) (d := ⟨x.disk hd, x.heap⟩) none p
  rw [runs_ok (onDisk_run he)]
  refine ⟨?_, fun h => HeapOk.free (d := ⟨x.disk hd, x.heap⟩) h none p⟩
  simp only [Dev.free_disk, update_eq_self]

theorem ideRead_sector {lba : Nat} (h : lba ≤ maxLba) :
    onDisk hd (ideRead lba zeros 1) x = .ok (sector (x.disk hd) lba, x) := by
  have he : exec device (ideRead lba zeros 1) x.mem ⟨x.disk hd, x.heap⟩ =
      .ok (splice zeros 0 (shift (x.disk hd) (512 * lba)) (512 * 1), x.mem, ⟨x.disk hd, x.heap⟩) :=
    exec_ideRead zeros h Nat.one_pos (by omega)
  rw [onDisk_run he]
  simp only [update_eq_self]
  rfl

theorem addLogic_added (hd : Hd) (lba : Nat) (p : Entry) (hl : x.lNo < 8) :
    runs (fun _ => False) (addLogic hd lba p)
      (fun _ y => Added hd [] [⟨add32 lba p.startLba, p.secCnt⟩] x y ∧ y.extLbaBase = x.extLbaBase) x := by
  unfold addLogic
  rw [runs_read_bind]
  refine runs_guard_bind (fun hno => absurd hl hno) fun _ => ?_
  refine ⟨⟨rfl, rfl, id, rfl, rfl, ⟨[(hd, 4 + x.lNo)], rfl, .refl _⟩, ?_, ?_, ?_⟩, rfl⟩
  · intro i q hi
    simp at hi
  · intro i q hi
    cases i with
    | zero =>
      obtain rfl := Option.some.inj hi
      simp [Ide.setPart]
    | succ i => simp at hi
  · intro hd' i hi
    show update x.parts hd _ hd' i = _
    by_cases hh : hd' = hd
    · subst hh
      have hne : i ≠ 4 + x.lNo := by
        have := (hi rfl).2
        simp only [List.length_singleton] at this
        omega
      rw [update_self, update_of_ne hne]
    · rw [update_of_ne hh]

theorem addPrimary_added (hd : Hd) (lba : Nat) (p : Entry) (hp : x.pNo + 1 < 4) :
    runs (fun _ => False) (addPrimary hd lba p)
      (fun _ y => Added hd [⟨add32 lba p.startLba, p.secCnt⟩] [] x y ∧ y.extLbaBase = x.extLbaBase) x := by
  unfold addPrimary
  rw [runs_read_bind]
  refine runs_guard_bind (fun hno => absurd (by omega) hno) fun _ => ?_
  rw [runs_change_bind]
  refine runs_guard (fun hno => absurd hp hno) fun _ => ?_
  refine ⟨⟨rfl, rfl, id, rfl, rfl, ⟨[(hd, x.pNo)], rfl, .refl _⟩, ?_, ?_, ?_⟩, rfl⟩
  · intro i q hi
    cases i with
    | zero =>
      obtain rfl := Option.some.inj hi
      simp [Ide.setPart]
    | succ i => simp at hi
  · intro i q hi
    simp at hi
  · intro hd' i hi
    show update x.parts hd _ hd' i = _
    by_cases hh : hd' = hd
    · subst hh
      have hne : i ≠ x.pNo := by
        have := (hi rfl).1
        simp only [List.length_singleton] at this
        omega
      rw [update_self, update_of_ne hne]
    · rw [update_of_ne hh]

/-! ## The tables behind the first -/

/-- A state in which the tables behind the first one of `hd` are scanned. -/
structure Ready (hd : Hd) (disk : Bytes) (base : Nat) (x : Ide) : Prop where
  disk : x.disk hd = disk
  base : x.extLbaBase = base
  heap : x.HeapOk
  pNo : x.pNo ≤ 4

variable {disk : Bytes} {base lba frames depth : Nat}

theorem Ready.added (h : Ready hd disk base x) (ha : Added hd [] ls x y) (hb : y.extLbaBase = base) :
    Ready hd disk base y where
  disk := by
    rw [ha.disk]
    exact h.disk
  base := hb
  heap := ha.heap h.heap
  pNo := by
    rw [ha.pNo]
    exact h.pNo

/-- What a scan of a table does: it registers what the table gives. -/
def Scans (hd : Hd) (disk : Bytes) (base : Nat) (m : I Unit) (ls : List Part) : Prop :=
  ∀ x, Ready hd disk base x → x.lNo + ls.length ≤ 8 →
    runs (fun _ => False) m (fun _ y => Added hd [] ls x y ∧ y.extLbaBase = base) x

theorem logicals_lt (h : logicals disk base depth lba = some ls) : lba ≠ 0 ∧ lba ≤ maxLba := by
  cases depth with
  | zero => cases h
  | succ depth =>
    unfold logicals at h
    split at h
    · cases h
    · omega

/-- The loop over the entries of a table. -/
theorem scanEntries_logicals {scan : Nat → I Unit} (hbase : base ≠ 0) (hlba : lba ≠ 0)
    (hscan : ∀ l ls, logicals disk base depth l = some ls → (∀ p ∈ ls, p.startLba ≤ maxLba) → Scans hd disk base (scan l) ls) :
    ∀ (es : List Entry) (ls : List Part), concat (fun p => if p.fsType = 0x05 then logicals disk base depth (base + p.startLba)
        else if p.fsType ≠ 0 then some [⟨lba + p.startLba, p.secCnt⟩] else some []) es = some ls →
      (∀ p ∈ ls, p.startLba ≤ maxLba) → ∀ x, Ready hd disk base x → x.lNo + ls.length ≤ 8 →
      runs (fun _ => False) (scanEntries scan hd lba es) (fun _ y => Added hd [] ls x y ∧ y.extLbaBase = base) x := by
  have hmax : maxLba < 4294967296 := by decide
  intro es
  induction es with
  | nil =>
    intro ls h _ x hx _
    obtain rfl := Option.some.inj h
    exact ⟨Added.refl hd x, hx.base⟩
  | cons p es ih =>
    intro ls h hle x hx hroom
    unfold concat at h
    obtain ⟨a, ha, h⟩ := Option.bind_eq_some_iff.1 h
    obtain ⟨b, hb, h⟩ := Option.bind_eq_some_iff.1 h
    obtain rfl := Option.some.inj h
    have hlea : ∀ q ∈ a, q.startLba ≤ maxLba := fun q hq => hle q (List.mem_append_left _ hq)
    have hleb : ∀ q ∈ b, q.startLba ≤ maxLba := fun q hq => hle q (List.mem_append_right _ hq)
    rw [List.length_append] at hroom
    -- what is left of the table, behind the partitions `a` of this entry
    have hrest : ∀ y, Added hd [] a x y ∧ y.extLbaBase = base →
        runs (fun _ => False) (scanEntries scan hd lba es) (fun _ z => Added hd [] (a ++ b) x z ∧ z.extLbaBase = base) y := by
      intro y hy
      have hlNo := hy.1.lNo
      refine runs_post (ih b hb hleb y (hx.added hy.1 hy.2) (by omega)) fun _ z hz => ?_
      have hp := hx.pNo
      exact ⟨hy.1.trans hz.1 (by simpa using hp), hz.2⟩
    unfold scanEntries
    by_cases h5 : p.fsType = 0x05
    · rw [if_pos h5] at ha ⊢
      have hadd : add32 p.startLba base = base + p.startLba := by
        have := (logicals_lt ha).2
        unfold add32
        rw [Nat.mod_eq_of_lt (by omega), Nat.add_comm]
      rw [runs_read_bind, if_pos (by rw [hx.base]; exact hbase), hx.base, hadd]
      exact runs_seq (hscan _ a ha hlea x hx (by omega)) fun _ y hy => hrest y hy
    · rw [if_neg h5] at ha ⊢
      by_cases h0 : p.fsType = 0
      · rw [if_neg (by simpa using h0)] at ha
        rw [if_neg (by simpa using h0)]
        obtain rfl := Option.some.inj ha
        exact hrest x ⟨Added.refl hd x, hx.base⟩
      · rw [if_pos h0] at ha
        rw [if_pos h0, if_neg hlba]
        obtain rfl := Option.some.inj ha
        have hstart : lba + p.startLba ≤ maxLba := hlea _ (List.mem_singleton.2 rfl)
        rw [List.length_singleton] at hroom
        have hadd : add32 lba p.startLba = lba + p.startLba := Nat.mod_eq_of_lt (by omega)
        refine runs_seq (addLogic_added hd lba p (by omega)) fun _ y hy => ?_
        rw [hadd] at hy
        have hy' : Added hd [] [⟨lba + p.startLba, p.secCnt⟩] x y ∧ y.extLbaBase = base := ⟨hy.1, hy.2.trans hx.base⟩
        rw [runs_read_bind]
        refine runs_ite (fun hfull => ?_) fun _ => hrest y hy'
        -- eight partitions: there is room for no more, so the tables give no more
        have hlNo := hy.1.lNo
        rw [List.length_singleton] at hlNo
        have hnil : b = [] := List.length_eq_zero_iff.1 (by omega)
        rw [hnil, List.append_nil]
        exact hy'

/-- Every table behind the first one gives its partitions, by induction on the depth. -/
theorem scan_logicals (hbase : base ≠ 0) : ∀ (depth frames lba : Nat) (ls : List Part), depth ≤ frames →
    logicals disk base depth lba = some ls → (∀ p ∈ ls, p.startLba ≤ maxLba) →
    Scans hd disk base (partitionScan hd frames lba) ls := by
  intro depth
  induction depth with
  | zero =>
    intro frames lba ls _ h
    cases h
  | succ depth ih =>
    intro frames lba ls hf h hle x hx hroom
    obtain ⟨frames, rfl⟩ : ∃ n, frames = n + 1 := ⟨frames - 1, by omega⟩
    have hlba := logicals_lt h
    unfold logicals at h
    rw [if_neg (by omega)] at h
    unfold partitionScan
    refine runs_seq (sysMalloc_heapOnly hx.heap) fun bs x₁ h₁ => ?_
    have hx₁ : Ready hd disk base x₁ := by
      rw [h₁.eq]
      exact ⟨hx.disk, hx.base, h₁.eq ▸ h₁.heap hx.heap, hx.pNo⟩
    have hl₁ : x₁.lNo = x.lNo := by rw [h₁.eq]
    rw [runs_bind_ok (ideRead_sector hlba.2), hx₁.disk]
    refine runs_seq (scanEntries_logicals hbase hlba.1 (fun l ls' hl' hle' => ih frames l ls' (by omega) hl' hle') _ ls h hle
      x₁ hx₁ (by omega)) fun b y hy => ?_
    have hdone := h₁.added hy.1
    cases b with
    | true =>
      refine runs_post (sysFree_heapOnly (x := y) bs) fun _ z hz => ⟨hdone.heapOnly hz, ?_⟩
      rw [hz.eq]
      exact hy.2
    | false => exact ⟨hdone, hy.2⟩

/-! ## The first table -/

theorem extended_cons (p : Entry) (es : List Entry) :
    extended (p :: es) = if p.fsType = 0x05 then p.startLba :: extended es else extended es := by
  unfold extended
  by_cases h : p.fsType = 0x05 <;> simp [h]

theorem primaries_cons (p : Entry) (es : List Entry) : primaries (p :: es) =
    if p.fsType ≠ 0x05 ∧ p.fsType ≠ 0 then ⟨p.startLba, p.secCnt⟩ :: primaries es else primaries es := by
  unfold primaries
  by_cases h : p.fsType ≠ 0x05 ∧ p.fsType ≠ 0
  · simp [h]
  · rw [if_neg h, List.filter_cons_of_neg (by simpa using h)]

/-- What the extended partition of a first table gives, if it has one; then nothing has been
scanned that had one. -/
def Extends (disk : Bytes) (depth : Nat) (es : List Entry) (ls : List Part) (x : Ide) : Prop :=
  (extended es = [] ∧ ls = []) ∨
    ∃ base, extended es = [base] ∧ x.extLbaBase = 0 ∧ logicals disk base depth base = some ls

/-- The loop over the entries of the first table. -/
theorem scanEntries_first {scan : Nat → I Unit} (hscan : ∀ base ls, logicals disk base depth base = some ls →
      (∀ p ∈ ls, p.startLba ≤ maxLba) → Scans hd disk base (scan base) ls) :
    ∀ (es : List Entry) (ls : List Part) (x : Ide), Extends disk depth es ls x →
      (∀ p ∈ primaries es ++ ls, p.startLba ≤ maxLba) → x.disk hd = disk → x.HeapOk →
      x.pNo + (primaries es).length ≤ 3 → x.lNo + ls.length ≤ 8 →
      runs (fun _ => False) (scanEntries scan hd 0 es)
        (fun _ y => Added hd (primaries es) ls x y ∧ (extended es = [] → y.extLbaBase = x.extLbaBase)) x := by
  have hmax : maxLba < 4294967296 := by decide
  intro es
  induction es with
  | nil =>
    intro ls x hext _ _ _ _ _
    have hls : ls = [] := by
      cases hext with
      | inl h => exact h.2
      | inr h =>
        obtain ⟨base, hb, -⟩ := h
        cases hb
    subst hls
    exact ⟨Added.refl hd x, fun _ => rfl⟩
  | cons p es ih =>
    intro ls x hext hle hdisk hheap hp hl
    unfold scanEntries
    by_cases h5 : p.fsType = 0x05
    · have hprim : primaries (p :: es) = primaries es := by
        rw [primaries_cons, if_neg fun h => h.1 h5]
      have hcons : extended (p :: es) = p.startLba :: extended es := by
        rw [extended_cons, if_pos h5]
      rw [hprim] at hle hp ⊢
      unfold Extends at hext
      rw [hcons] at hext ⊢
      obtain ⟨base, hb, h0, hlog⟩ : ∃ base, p.startLba :: extended es = [base] ∧ x.extLbaBase = 0 ∧
          logicals disk base depth base = some ls := by
        cases hext with
        | inl h => cases h.1
        | inr h => exact h
      obtain ⟨rfl, hnone⟩ := List.cons.inj hb
      have hlba := logicals_lt hlog
      rw [if_pos h5, runs_read_bind, if_neg (by simpa using h0), runs_change_bind]
      have hready : Ready hd disk p.startLba { x with extLbaBase := p.startLba } := ⟨hdisk, rfl, hheap, by
        show x.pNo ≤ 4
        omega⟩
      refine runs_seq (hscan _ ls hlog (fun q hq => hle q (List.mem_append_right _ hq)) _ hready hl) fun _ y hy => ?_
      have hadd := hy.1.base
      have hpNo := hadd.pNo
      have hlNo := hadd.lNo
      simp only [List.length_nil, Nat.add_zero] at hpNo
      refine runs_post (ih [] y (.inl ⟨hnone, rfl⟩) (fun q hq => hle q (by
        rw [List.append_nil] at hq
        exact List.mem_append_left _ hq)) (by rw [hadd.disk]; exact hdisk) (hadd.heap hheap) (by omega) (by
        simp only [List.length_nil]
        omega)) fun _ z hz => ?_
      have htr := hadd.trans hz.1 (by simp only [List.length_nil]; omega)
      rw [List.nil_append, List.append_nil] at htr
      exact ⟨htr, fun h => by cases h⟩
    · have hcons : extended (p :: es) = extended es := by
        rw [extended_cons, if_neg h5]
      unfold Extends at hext
      rw [hcons] at hext ⊢
      rw [if_neg h5]
      by_cases h0 : p.fsType = 0
      · have hprim : primaries (p :: es) = primaries es := by
          rw [primaries_cons, if_neg fun h => h.2 h0]
        rw [hprim] at hle hp ⊢
        rw [if_neg (by simpa using h0)]
        exact ih ls x hext hle hdisk hheap hp hl
      · have hprim : primaries (p :: es) = ⟨p.startLba, p.secCnt⟩ :: primaries es := by
          rw [primaries_cons, if_pos ⟨h5, h0⟩]
        rw [hprim] at hle hp ⊢
        rw [List.length_cons] at hp
        rw [if_pos h0, if_pos rfl]
        have hstart : p.startLba ≤ maxLba := hle ⟨p.startLba, p.secCnt⟩ (by simp)
        have hadd : add32 0 p.startLba = p.startLba := by
          unfold add32
          rw [Nat.zero_add, Nat.mod_eq_of_lt (by omega)]
        refine runs_seq (addPrimary_added hd 0 p (by omega)) fun _ y hy => ?_
        rw [hadd] at hy
        have hpNo := hy.1.pNo
        have hlNo := hy.1.lNo
        rw [List.length_singleton] at hpNo
        rw [List.length_nil, Nat.add_zero] at hlNo
        have hext' : Extends disk depth es ls y := by
          unfold Extends
          rw [hy.2]
          exact hext
        refine runs_post (ih ls y hext' (fun q hq => hle q (List.mem_cons_of_mem _ hq)) (by rw [hy.1.disk]; exact hdisk)
          (hy.1.heap hheap) (by omega) (by omega)) fun _ z hz => ?_
        have htr := hy.1.trans hz.1 (by
          rw [List.length_singleton]
          omega)
        exact ⟨htr, fun h => (hz.2 h).trans hy.2⟩

/-! ## Disks and channels -/

/-- What `struct disk` has room for: `ASSERT(p_no < 4)` comes behind the increment. -/
structure Fits (ps ls : List Part) : Prop where
  prims : ps.length ≤ 3
  logs : ls.length ≤ 8

/-- The extended partition of a disk. -/
def ext (disk : Bytes) : List Nat := extended (partitionTable (sector disk 0))

theorem scan_disk (ht : Tables disk depth ps ls) (hfit : Fits ps ls) (hf : depth < frames) (hdisk : x.disk hd = disk)
    (hheap : x.HeapOk) (hp : x.pNo = 0) (hl : x.lNo = 0) (hext : x.extLbaBase = 0 ∨ ext disk = []) :
    runs (fun _ => False) (partitionScan hd frames 0)
      (fun _ y => Added hd ps ls x y ∧ (ext disk = [] → y.extLbaBase = x.extLbaBase)) x := by
  obtain ⟨frames, rfl⟩ : ∃ n, frames = n + 1 := ⟨frames - 1, by omega⟩
  have hle : ∀ p ∈ ps ++ ls, p.startLba ≤ maxLba := by
    intro p hm
    have := ht.within p hm
    have := ht.pos p hm
    omega
  have hroom := hfit.prims
  have hroom' := hfit.logs
  unfold partitionScan
  refine runs_seq (sysMalloc_heapOnly hheap) fun bs x₁ h₁ => ?_
  have hdisk₁ : x₁.disk hd = disk := by
    rw [h₁.eq]
    exact hdisk
  have hbase₁ : x₁.extLbaBase = x.extLbaBase := by rw [h₁.eq]
  have hp₁ : x₁.pNo = 0 := by
    rw [h₁.eq]
    exact hp
  have hl₁ : x₁.lNo = 0 := by
    rw [h₁.eq]
    exact hl
  rw [runs_bind_ok (ideRead_sector (Nat.zero_le _)), hdisk₁]
  have hex : Extends disk depth (partitionTable (sector disk 0)) ls x₁ := by
    cases ht.logs with
    | inl h => exact .inl h
    | inr h =>
      obtain ⟨base, hb, hlog⟩ := h
      refine .inr ⟨base, hb, ?_, hlog⟩
      rw [hbase₁]
      refine hext.resolve_right fun hnil => ?_
      rw [ext, hb] at hnil
      cases hnil
  have hprims := ht.prims
  subst hprims
  refine runs_seq (scanEntries_first (fun base ls' hlog hle' => scan_logicals (logicals_lt hlog).1 depth frames base ls'
    (by omega) hlog hle') _ ls x₁ hex hle hdisk₁ (h₁.heap hheap) (by omega) (by omega)) fun b y hy => ?_
  have hdone := h₁.added hy.1
  have hlast : ext disk = [] → y.extLbaBase = x.extLbaBase := fun h => (hy.2 h).trans hbase₁
  cases b with
  | true =>
    refine runs_post (sysFree_heapOnly (x := y) bs) fun _ z hz => ⟨hdone.heapOnly hz, fun h => ?_⟩
    rw [hz.eq]
    exact hlast h
  | false => exact ⟨hdone, hlast⟩

theorem initDisk_first {c : Nat} (h : x.present (c, 0) = true) :
    runs (fun _ => False) (initDisk frames (c, 0)) (fun _ y => y = { x with pNo := 0, lNo := 0 }) x := by
  unfold initDisk
  rw [runs_read_bind]
  refine runs_guard_bind (fun hno => absurd h hno) fun _ => ?_
  exact runs_seq (P := fun _ y => y = x) (runs_when (fun hne => absurd rfl hne) fun _ => rfl)
    fun _ y hy => by
      subst hy
      rfl

variable {prims logs : Nat → List Part} {c : Nat} {cs : List Nat}

/-- The partitions of the disks that were scanned, on the list and in `struct disk`. -/
structure Registers (prims logs : Nat → List Part) (cs : List Nat) (x y : Ide) : Prop where
  disk : y.disk = x.disk
  heap : x.HeapOk → y.HeapOk
  list : ∃ new, y.partitionList = x.partitionList ++ new ∧
    new.Perm (cs.flatMap fun c => slots (c, 1) 0 (prims c).length ++ slots (c, 1) 4 (logs c).length)
  prim : ∀ c ∈ cs, ∀ i p, (prims c)[i]? = some p → y.parts (c, 1) i = p
  logic : ∀ c ∈ cs, ∀ i p, (logs c)[i]? = some p → y.parts (c, 1) (4 + i) = p
  rest : ∀ hd i, (∀ c ∈ cs, hd = (c, 1) → (prims c).length ≤ i ∧ (i < 4 ∨ 4 + (logs c).length ≤ i)) →
    y.parts hd i = x.parts hd i

/-- A machine whose second disks have valid tables that fit. Where two of them have an
extended partition the second one would be scanned from that of the first. -/
structure Machine (frames : Nat) (prims logs : Nat → List Part) (cs : List Nat) (x : Ide) : Prop where
  distinct : cs.Nodup
  present : ∀ c ∈ cs, x.present (c, 0) = true ∧ x.present (c, 1) = true
  tables : ∀ c ∈ cs, ∃ depth, depth < frames ∧ Tables (x.disk (c, 1)) depth (prims c) (logs c)
  fits : ∀ c ∈ cs, Fits (prims c) (logs c)
  first : x.extLbaBase = 0 ∨ ∀ c ∈ cs, ext (x.disk (c, 1)) = []
  one : cs.Pairwise fun c c' => ext (x.disk (c, 1)) = [] ∨ ext (x.disk (c', 1)) = []

/-- A second disk. -/
theorem initDisk_second (h : Machine frames prims logs (c :: cs) x) (hheap : x.HeapOk) (hp : x.pNo = 0) (hl : x.lNo = 0) :
    runs (fun _ => False) (initDisk frames (c, 1)) (fun _ y => Added (c, 1) (prims c) (logs c) x { y with
      pNo := x.pNo + (prims c).length, lNo := x.lNo + (logs c).length } ∧ y.pNo = 0 ∧ y.lNo = 0 ∧
      (ext (x.disk (c, 1)) = [] → y.extLbaBase = x.extLbaBase)) x := by
  have hc : c ∈ c :: cs := List.mem_cons_self
  obtain ⟨depth, hf, ht⟩ := h.tables c hc
  have hext : x.extLbaBase = 0 ∨ ext (x.disk (c, 1)) = [] := h.first.imp id fun hall => hall c hc
  unfold initDisk
  rw [runs_read_bind]
  refine runs_guard_bind (fun hno => absurd (h.present c hc).2 hno) fun _ => ?_
  refine runs_seq (runs_when (fun _ => scan_disk ht (h.fits c hc) hf rfl hheap hp hl hext)
    fun hno => absurd Nat.one_ne_zero hno) fun _ y hy => ?_
  refine ⟨?_, rfl, rfl, hy.2⟩
  have ha := hy.1
  exact ⟨ha.disk, ha.present, ha.heap, rfl, rfl, ha.list, ha.prim, ha.logic, ha.rest⟩

/-- Every channel, one after the other. -/
theorem initChannels_registers : ∀ (cs : List Nat) (x : Ide), Machine frames prims logs cs x → x.HeapOk →
    runs (fun _ => False) (initChannels frames cs) (fun _ y => Registers prims logs cs x y) x := by
  intro cs
  induction cs with
  | nil =>
    intro x _ _
    have hnil : ∀ c : Nat, c ∉ ([] : List Nat) := fun c => List.not_mem_nil
    exact ⟨rfl, id, ⟨[], by simp, .refl _⟩, fun c hc => absurd hc (hnil c), fun c hc => absurd hc (hnil c),
      fun _ _ _ => rfl⟩
  | cons c cs ih =>
    intro x h hheap
    have hc : c ∈ c :: cs := List.mem_cons_self
    unfold initChannels
    refine runs_seq (initDisk_first (h.present c hc).1) fun _ x₁ h₁ => ?_
    subst h₁
    have hm : Machine frames prims logs (c :: cs) { x with pNo := 0, lNo := 0 } :=
      ⟨h.distinct, h.present, h.tables, h.fits, h.first, h.one⟩
    refine runs_seq (initDisk_second hm hheap rfl rfl) fun _ y hy => ?_
    obtain ⟨ha, hp, hl, hext⟩ := hy
    have hdisk : y.disk = x.disk := ha.disk
    have hpresent : y.present = x.present := ha.present
    obtain ⟨hnot, hdist⟩ := List.nodup_cons.1 h.distinct
    obtain ⟨hone, hpair⟩ := List.pairwise_cons.1 h.one
    have hrest : Machine frames prims logs cs y := by
      constructor
      case distinct => exact hdist
      case present =>
        intro c' hc'
        rw [hpresent]
        exact h.present c' (List.mem_cons_of_mem _ hc')
      case tables =>
        intro c' hc'
        rw [hdisk]
        exact h.tables c' (List.mem_cons_of_mem _ hc')
      case fits => exact fun c' hc' => h.fits c' (List.mem_cons_of_mem _ hc')
      case first =>
        rw [hdisk]
        by_cases hex : ext (x.disk (c, 1)) = []
        · rw [hext hex]
          exact h.first.imp id fun hall c' hc' => hall c' (List.mem_cons_of_mem _ hc')
        · exact .inr fun c' hc' => (hone c' hc').resolve_left hex
      case one =>
        rw [hdisk]
        exact hpair
    have hne : ∀ c' ∈ cs, (c, 1) ≠ (c', 1) := by
      intro c' hc' heq
      cases heq
      exact hnot hc'
    refine runs_post (ih y hrest (ha.heap hheap)) fun _ z hz => ?_
    have hkept : ∀ i, z.parts (c, 1) i = y.parts (c, 1) i := fun i =>
      hz.rest (c, 1) i fun c' hc' heq => absurd heq (hne c' hc')
    constructor
    case disk => exact hz.disk.trans hdisk
    case heap => exact fun hx => hz.heap (ha.heap hx)
    case list =>
      obtain ⟨new, hnew, hperm⟩ := ha.list
      obtain ⟨new', hnew', hperm'⟩ := hz.list
      have hnew : y.partitionList = x.partitionList ++ new := hnew
      refine ⟨new ++ new', by rw [hnew', hnew, List.append_assoc], ?_⟩
      rw [List.flatMap_cons]
      exact hperm.append hperm'
    case prim =>
      intro c' hc' i p hi
      cases hc' with
      | head =>
        rw [hkept]
        have hval : y.parts (c, 1) (0 + i) = p := ha.prim i p hi
        rwa [Nat.zero_add] at hval
      | tail _ hc' => exact hz.prim c' hc' i p hi
    case logic =>
      intro c' hc' i p hi
      cases hc' with
      | head =>
        rw [hkept]
        exact ha.logic i p hi
      | tail _ hc' => exact hz.logic c' hc' i p hi
    case rest =>
      intro hd i hi
      rw [hz.rest hd i fun c' hc' => hi c' (List.mem_cons_of_mem _ hc')]
      refine ha.rest hd i fun heq => ?_
      have := hi c hc heq
      simp only [Nat.zero_add]
      omega

end

end Enix.Device
