import Enix.Device.FormatAll

/-!
# How far the scan of a disk gets (`device/ide.c:294-351`)

`reading` is what there is to read in the partition tables of a disk, in the order in
which the tables lie: the tables, with the primary and logical partitions in them. It
knows nothing of `struct disk`. A table is left after its entry for the eighth logical
partition of the disk.

* `scan_reading`: the scan returns exactly if the tables come to an end on the stack, lie
  where the driver reads, and hold no more than `struct disk` and the ASSERT allow.
* `partitionScan_iff`: the same for the first table of a disk.
* `partitionScan_cycle`: a table that names itself.
-/
set_option autoImplicit false

namespace Enix.Device
open Enix.Core Enix.Kernel Enix.Fs Function

/-! ## What there is to read -/

inductive Item where
  | table (lba : Nat)
  | primary (p : Part)
  | logical (p : Part)
  deriving DecidableEq, Repr

/-- The start of the extended partition, 0 before there is one, and the number of logical
partitions so far. -/
structure Mark where
  base : Nat
  logs : Nat
  deriving DecidableEq, Repr

/-- What is read first, and what is read after it. -/
def joinReading (r : Option (List Item × Mark)) (f : Mark → Option (List Item × Mark)) : Option (List Item × Mark) :=
  r.bind fun a => (f a.2).map fun b => (a.1 ++ b.1, b.2)

def readOne (i : Item) (m : Mark) : Option (List Item × Mark) := some ([i], m)

def entryPart (lba : Nat) (e : Entry) : Part := ⟨add32 lba e.startLba, e.secCnt⟩

/-- The entries of the table at `lba`. Links are relative to the extended partition, and
partitions to the table. -/
def readEntries (table : Nat → Mark → Option (List Item × Mark)) (lba : Nat) : List Entry → Mark →
    Option (List Item × Mark)
  | [], m => some ([], m)
  | e :: es, m =>
    if e.fsType = 0x05 then
      joinReading (if m.base ≠ 0 then table (add32 e.startLba m.base) m else table e.startLba { m with base := e.startLba })
        (readEntries table lba es)
    else if e.fsType ≠ 0 then
      if lba = 0 then joinReading (readOne (.primary (entryPart lba e)) m) (readEntries table lba es)
      else joinReading (readOne (.logical (entryPart lba e)) { m with logs := m.logs + 1 }) fun m =>
        if 8 ≤ m.logs then some ([], m) else readEntries table lba es m
    else readEntries table lba es m

/-- The tables from `lba` on; `none`: they are nested deeper than `depth`, or without an end. -/
def reading (disk : Bytes) : (depth lba : Nat) → Mark → Option (List Item × Mark)
  | 0, _, _ => none
  | depth + 1, lba, m =>
    joinReading (readOne (.table lba) m) (readEntries (reading disk depth) lba (partitionTable (sector disk lba)))

def Item.lba? : Item → Option Nat
  | table lba => some lba
  | _ => none

def Item.primary? : Item → Option Part
  | primary p => some p
  | _ => none

def Item.logical? : Item → Option Part
  | logical p => some p
  | _ => none

/-- What the driver reads, and `struct disk` has room for behind `p` primary and `l`
logical partitions: `ASSERT(p_no < 4)` comes behind the increment. -/
structure Room (p l : Nat) (r : List Item) : Prop where
  tables : ∀ lba ∈ r.filterMap Item.lba?, lba ≤ maxLba
  prims : p + (r.filterMap Item.primary?).length ≤ 3
  logs : l + (r.filterMap Item.logical?).length ≤ 8

section
variable {hd : Hd} {x y : Ide} {r r' : List Item} {m m' : Mark} {lba p l frames : Nat} {disk : Bytes} {α β : Type}

/-! ## The scan reads -/

def Ide.mark (x : Ide) : Mark := ⟨x.extLbaBase, x.lNo⟩

/-- A scan before which it may go on. -/
structure Scannable (hd : Hd) (disk : Bytes) (x : Ide) : Prop where
  disk : x.disk hd = disk
  heap : x.HeapOk
  pNo : x.pNo ≤ 3
  lNo : x.lNo ≤ 8

/-- The partitions that were read have been registered. -/
structure Registered (hd : Hd) (r : List Item) (m : Mark) (x y : Ide) : Prop where
  added : Added hd (r.filterMap Item.primary?) (r.filterMap Item.logical?) x y
  mark : y.mark = m

/-- A piece of the scan gets through what there is to read if there is room for it. -/
def Scanned (hd : Hd) (c : I α) (x : Ide) : Option (List Item × Mark) → Prop
  | none => ∃ e, c x = .error e
  | some (r, m) => (Room x.pNo x.lNo r → ∃ a y, c x = .ok (a, y) ∧ Registered hd r m x y) ∧
      (¬ Room x.pNo x.lNo r → ∃ e, c x = .error e)

theorem room_append : Room p l (r ++ r') ↔
    Room p l r ∧ Room (p + (r.filterMap Item.primary?).length) (l + (r.filterMap Item.logical?).length) r' := by
  constructor
  · intro h
    have h1 := h.prims
    have h2 := h.logs
    simp only [List.filterMap_append, List.length_append] at h1 h2
    refine ⟨⟨fun lba hl => h.tables lba ?_, by omega, by omega⟩, ⟨fun lba hl => h.tables lba ?_, by omega, by omega⟩⟩
    · rw [List.filterMap_append]
      exact List.mem_append_left _ hl
    · rw [List.filterMap_append]
      exact List.mem_append_right _ hl
  · rintro ⟨h, h'⟩
    have h1 := h'.prims
    have h2 := h'.logs
    refine ⟨fun lba hl => ?_, ?_, ?_⟩
    · rw [List.filterMap_append] at hl
      exact (List.mem_append.1 hl).elim (h.tables lba) (h'.tables lba)
    · rw [List.filterMap_append, List.length_append]
      omega
    · rw [List.filterMap_append, List.length_append]
      omega

theorem Scannable.registered (h : Scannable hd disk x) (hr : Registered hd r m x y) (hroom : Room x.pNo x.lNo r) :
    Scannable hd disk y where
  disk := by
    rw [hr.added.disk]
    exact h.disk
  heap := hr.added.heap h.heap
  pNo := by
    rw [hr.added.pNo]
    exact hroom.prims
  lNo := by
    rw [hr.added.lNo]
    exact hroom.logs

/-- One piece of the scan after another. -/
theorem Scanned.seq {c : I α} {f : α → I β} {o : Option (List Item × Mark)} {g : Mark → Option (List Item × Mark)}
    (hx : Scannable hd disk x) (h : Scanned hd c x o)
    (hf : ∀ a y, c x = .ok (a, y) → Scannable hd disk y → Scanned hd (f a) y (g y.mark)) :
    Scanned hd (c >>= f) x (joinReading o g) := by
  cases o with
  | none =>
    obtain ⟨e, he⟩ := h
    exact ⟨e, bind_error he⟩
  | some o =>
    obtain ⟨r, m⟩ := o
    obtain ⟨hok, hno⟩ := h
    by_cases hroom : Room x.pNo x.lNo r
    · obtain ⟨a, y, hrun, hreg⟩ := hok hroom
      obtain rfl := hreg.mark
      have hrest := hf a y hrun (hx.registered hreg hroom)
      unfold joinReading
      rw [Option.bind_some]
      dsimp only
      cases hg : g y.mark with
      | none =>
        rw [hg] at hrest
        obtain ⟨e, he⟩ := hrest
        exact ⟨e, (bind_ok hrun).trans he⟩
      | some o' =>
        obtain ⟨r', m'⟩ := o'
        rw [hg] at hrest
        obtain ⟨hok', hno'⟩ := hrest
        have hiff : Room x.pNo x.lNo (r ++ r') ↔ Room y.pNo y.lNo r' := by
          rw [room_append, hreg.added.pNo, hreg.added.lNo]
          exact and_iff_right hroom
        constructor
        · intro hall
          obtain ⟨b, z, hrun', hreg'⟩ := hok' (hiff.1 hall)
          refine ⟨b, z, (bind_ok hrun).trans hrun', ?_, hreg'.mark⟩
          have hp : x.pNo + ((r ++ r').filterMap Item.primary?).length ≤ 3 := hall.prims
          rw [List.filterMap_append, List.length_append] at hp
          have htr := hreg.added.trans hreg'.added (Nat.le_succ_of_le (by rw [Nat.add_assoc]; exact hp))
          rwa [← List.filterMap_append, ← List.filterMap_append] at htr
        · intro hall
          obtain ⟨e, he⟩ := hno' (mt hiff.2 hall)
          exact ⟨e, (bind_ok hrun).trans he⟩
    · obtain ⟨e, he⟩ := hno hroom
      have herr : ∃ e, (c >>= f) x = .error e := ⟨e, bind_error he⟩
      unfold joinReading
      rw [Option.bind_some]
      dsimp only
      cases g m with
      | none => exact herr
      | some o' => exact ⟨fun hall => absurd (room_append.1 hall).1 hroom, fun _ => herr⟩

theorem scanned_pure (hx : Scannable hd disk x) (a : α) : Scanned hd (pure a : I α) x (some ([], x.mark)) := by
  refine ⟨fun _ => ⟨a, x, rfl, Added.refl hd x, rfl⟩, fun hno => absurd ⟨fun lba hl => ?_, hx.pNo, hx.lNo⟩ hno⟩
  cases hl

/-- A step that is nothing to read. -/
theorem Scanned.silent {c : I α} {f : α → I β} {a : α} {o : Option (List Item × Mark)} (hrun : c x = .ok (a, y))
    (hsame : ∀ r m z, Registered hd r m y z → Registered hd r m x z) (hp : y.pNo = x.pNo) (hl : y.lNo = x.lNo)
    (h : Scanned hd (f a) y o) : Scanned hd (c >>= f) x o := by
  cases o with
  | none =>
    obtain ⟨e, he⟩ := h
    exact ⟨e, (bind_ok hrun).trans he⟩
  | some o =>
    obtain ⟨r, m⟩ := o
    unfold Scanned at h ⊢
    rw [bind_ok hrun, ← hp, ← hl]
    refine ⟨fun hroom => ?_, h.2⟩
    obtain ⟨b, z, hz, hreg⟩ := h.1 hroom
    exact ⟨b, z, hz, hsame r m z hreg⟩

theorem room_one_primary (hl : x.lNo ≤ 8) (q : Part) :
    Room x.pNo x.lNo [.primary q] ↔ x.pNo + 1 < 4 := by
  refine ⟨fun h => Nat.lt_succ_of_le h.prims, fun h => ⟨fun lba hm => ?_, Nat.le_of_lt_succ h, hl⟩⟩
  cases hm

theorem room_one_logical (hp : x.pNo ≤ 3) (q : Part) : Room x.pNo x.lNo [.logical q] ↔ x.lNo < 8 := by
  refine ⟨fun h => h.logs, fun h => ⟨fun lba hm => ?_, hp, h⟩⟩
  cases hm

theorem addPrimary_scanned (hx : Scannable hd disk x) (lba : Nat) (e : Entry) :
    Scanned hd (addPrimary hd lba e) x (readOne (.primary (entryPart lba e)) x.mark) := by
  have hroom := room_one_primary hx.lNo (entryPart lba e)
  refine ⟨fun h => ?_, fun h => ⟨.panic, ?_⟩⟩
  · obtain ⟨a, y, hrun, hadd, hbase⟩ := returns_of_runs (addPrimary_added hd lba e (hroom.1 h))
    refine ⟨a, y, hrun, hadd, ?_⟩
    unfold Ide.mark
    rw [hbase, hadd.lNo]
    rfl
  · have hp := hx.pNo
    unfold addPrimary
    rw [bind_ok (read_run _ _), bind_ok (guard_run (by omega) _ _), bind_ok (change_run _ _)]
    exact guard_stop (mt hroom.2 h) _ _

theorem addLogic_scanned (hx : Scannable hd disk x) (lba : Nat) (e : Entry) :
    Scanned hd (addLogic hd lba e) x (readOne (.logical (entryPart lba e)) { x.mark with logs := x.mark.logs + 1 }) := by
  have hroom := room_one_logical hx.pNo (entryPart lba e)
  refine ⟨fun h => ?_, fun h => ⟨.ub, ?_⟩⟩
  · obtain ⟨a, y, hrun, hadd, hbase⟩ := returns_of_runs (addLogic_added hd lba e (hroom.1 h))
    refine ⟨a, y, hrun, hadd, ?_⟩
    unfold Ide.mark
    rw [hbase, hadd.lNo]
    rfl
  · unfold addLogic
    rw [bind_ok (read_run _ _)]
    exact bind_error (guard_stop (mt hroom.2 h) _ _)

/-- The loop over the entries, by induction on them. -/
theorem scanEntries_scanned {scan : Nat → I Unit} {table : Nat → Mark → Option (List Item × Mark)}
    (hscan : ∀ lba x, Scannable hd disk x → Scanned hd (scan lba) x (table lba x.mark)) (lba : Nat) :
    ∀ (es : List Entry) (x : Ide), Scannable hd disk x →
      Scanned hd (scanEntries scan hd lba es) x (readEntries table lba es x.mark) := by
  intro es
  induction es with
  | nil => exact fun x hx => scanned_pure hx true
  | cons e es ih =>
    intro x hx
    unfold scanEntries readEntries
    by_cases h5 : e.fsType = 0x05
    · rw [if_pos h5, if_pos h5]
      refine Scanned.silent (read_run _ _) (fun _ _ _ h => h) rfl rfl ?_
      change Scanned hd (if x.extLbaBase ≠ 0 then _ else _) x (joinReading (if x.extLbaBase ≠ 0 then _ else _) _)
      by_cases hbase : x.extLbaBase ≠ 0
      · rw [if_pos hbase, if_pos hbase]
        exact (hscan _ x hx).seq hx fun _ y _ hy => ih y hy
      · rw [if_neg hbase, if_neg hbase]
        refine Scanned.silent (change_run _ _) (fun _ _ _ h => ⟨h.added.base, h.mark⟩) rfl rfl ?_
        have hx' : Scannable hd disk { x with extLbaBase := e.startLba } := ⟨hx.disk, hx.heap, hx.pNo, hx.lNo⟩
        exact (hscan _ _ hx').seq hx' fun _ y _ hy => ih y hy
    · rw [if_neg h5, if_neg h5]
      by_cases h0 : e.fsType ≠ 0
      · rw [if_pos h0, if_pos h0]
        by_cases hlba : lba = 0
        · rw [if_pos hlba, if_pos hlba]
          exact (addPrimary_scanned hx lba e).seq hx fun _ y _ hy => ih y hy
        · rw [if_neg hlba, if_neg hlba]
          refine (addLogic_scanned hx lba e).seq hx fun _ y _ hy => ?_
          refine Scanned.silent (read_run _ _) (fun _ _ _ h => h) rfl rfl ?_
          change Scanned hd (if 8 ≤ y.lNo then pure false else scanEntries scan hd lba es) y
            (if 8 ≤ y.lNo then some ([], y.mark) else readEntries table lba es y.mark)
          by_cases hfull : 8 ≤ y.lNo
          · rw [if_pos hfull, if_pos hfull]
            exact scanned_pure hy false
          · rw [if_neg hfull, if_neg hfull]
            exact ih y hy
      · rw [if_neg h0, if_neg h0]
        exact ih x hx

theorem joinReading_nil (o : Option (List Item × Mark)) : joinReading o (fun m => some ([], m)) = o := by
  unfold joinReading
  cases o with
  | none => rfl
  | some a => simp

theorem ideRead_panic (h : ¬ lba ≤ maxLba) (x : Ide) : onDisk hd (ideRead lba zeros 1) x = .error .panic := by
  have hstop : exec device (ideRead lba zeros 1) x.mem ⟨x.disk hd, x.heap⟩ = .error .panic := by
    unfold ideRead assert
    rw [if_neg h]
    rfl
  unfold onDisk
  rw [hstop]

/-- `ide_read` of a table. -/
theorem ideRead_scanned (hx : Scannable hd disk x) (lba : Nat) :
    Scanned hd (onDisk hd (ideRead lba zeros 1)) x (readOne (.table lba) x.mark) := by
  have hroom : Room x.pNo x.lNo [.table lba] ↔ lba ≤ maxLba := by
    refine ⟨fun h => h.tables lba (List.mem_singleton.2 rfl), fun h => ⟨fun l hl => ?_, hx.pNo, hx.lNo⟩⟩
    rw [List.mem_singleton.1 hl]
    exact h
  exact ⟨fun h => ⟨_, x, ideRead_sector (hroom.1 h), Added.refl hd x, rfl⟩,
    fun h => ⟨.panic, ideRead_panic (mt hroom.2 h) x⟩⟩

theorem HeapOnly.registered (h : HeapOnly x y) {z : Ide} (hr : Registered hd r m y z) :
    Registered hd r m x z := ⟨h.added hr.added, hr.mark⟩

theorem sysFree_scanned (hx : Scannable hd disk x) (q : Ptr) :
    Scanned hd (onDisk hd (sysFree none q)) x (some ([], x.mark)) := by
  obtain ⟨a, y, hrun, hy⟩ := returns_of_runs (@sysFree_heapOnly hd x q)
  refine ⟨fun _ => ⟨a, y, hrun, (Added.refl hd x).heapOnly hy, ?_⟩, fun hno => absurd ⟨fun lba hl => ?_, hx.pNo, hx.lNo⟩ hno⟩
  · rw [hy.eq]
    rfl
  · cases hl

/-- The scan of the tables from `lba` on, by induction on the stack. -/
theorem scan_reading : ∀ (frames lba : Nat) (x : Ide), Scannable hd disk x →
    Scanned hd (partitionScan hd frames lba) x (reading disk frames lba x.mark) := by
  intro frames
  induction frames with
  | zero => exact fun _ x _ => ⟨.ub, rfl⟩
  | succ frames ih =>
    intro lba x hx
    obtain ⟨bs, y, hrun, hy⟩ := returns_of_runs (@sysMalloc_heapOnly hd x hx.heap)
    have hmark : y.mark = x.mark := by
      rw [hy.eq]
      rfl
    have hy' : Scannable hd disk y := by
      refine ⟨?_, hy.heap hx.heap, ?_, ?_⟩
      all_goals rw [hy.eq]
      · exact hx.disk
      · exact hx.pNo
      · exact hx.lNo
    unfold partitionScan reading
    refine Scanned.silent hrun (fun _ _ _ h => hy.registered h) (by rw [hy.eq]) (by rw [hy.eq]) ?_
    rw [← hmark]
    refine (ideRead_scanned hy' lba).seq hy' fun buf z hread hz => ?_
    have hbuf : buf = sector disk lba := by
      by_cases hlba : lba ≤ maxLba
      · rw [ideRead_sector hlba, hy'.disk] at hread
        cases hread
        rfl
      · rw [ideRead_panic hlba] at hread
        cases hread
    rw [hbuf, ← joinReading_nil (readEntries _ _ _ _)]
    refine (scanEntries_scanned ih lba _ z hz).seq hz fun b w _ hw => ?_
    cases b with
    | true => exact sysFree_scanned hw bs
    | false => exact scanned_pure hw ()

/-! ## A whole disk -/

/-- `partition_scan(hd, 0)` returns, with `frames` calls on the stack at most. A store behind
`prim_parts[3]` or `logic_parts[7]` stops the run, and so does a failed ASSERT. -/
def Completes (hd : Hd) (frames : Nat) (x : Ide) : Prop := ∃ y, partitionScan hd frames 0 x = .ok ((), y)

/-- The tables come to an end on the stack, lie where the driver reads, and fit. -/
def Bounded (disk : Bytes) (frames base : Nat) : Prop := ∃ r m, reading disk frames 0 ⟨base, 0⟩ = some (r, m) ∧ Room 0 0 r

/-- What `ide_init` passes: the counters are 0. -/
structure Fresh (x : Ide) : Prop where
  heap : x.HeapOk
  pNo : x.pNo = 0
  lNo : x.lNo = 0

theorem Fresh.scannable (h : Fresh x) (hd : Hd) : Scannable hd (x.disk hd) x :=
  ⟨rfl, h.heap, by rw [h.pNo]; decide, by rw [h.lNo]; decide⟩

theorem Fresh.scan (h : Fresh x) (hd : Hd) (frames : Nat) :
    Scanned hd (partitionScan hd frames 0) x (reading (x.disk hd) frames 0 ⟨x.extLbaBase, 0⟩) := by
  have hscan := scan_reading frames 0 x (h.scannable hd)
  unfold Ide.mark at hscan
  rw [h.lNo] at hscan
  exact hscan

/-- The scan registers what there is to read. -/
theorem Fresh.registered (h : Fresh x) (hread : reading (x.disk hd) frames 0 ⟨x.extLbaBase, 0⟩ = some (r, m))
    (hroom : Room 0 0 r) : ∃ y, partitionScan hd frames 0 x = .ok ((), y) ∧ Registered hd r m x y := by
  have hscan := h.scan hd frames
  rw [hread] at hscan
  obtain ⟨a, y, hrun, hreg⟩ := hscan.1 (by rw [h.pNo, h.lNo]; exact hroom)
  exact ⟨y, hrun, hreg⟩

theorem Fresh.bounded (h : Fresh x) (hc : Completes hd frames x) : Bounded (x.disk hd) frames x.extLbaBase := by
  obtain ⟨y, hrun⟩ := hc
  have hscan := h.scan hd frames
  unfold Bounded
  cases hread : reading (x.disk hd) frames 0 ⟨x.extLbaBase, 0⟩ with
  | none =>
    rw [hread] at hscan
    obtain ⟨e, he⟩ := hscan
    rw [hrun] at he
    cases he
  | some o =>
    obtain ⟨r, m⟩ := o
    rw [hread] at hscan
    refine ⟨r, m, rfl, ?_⟩
    by_contra hno
    obtain ⟨e, he⟩ := hscan.2 (by rw [h.pNo, h.lNo]; exact hno)
    rw [hrun] at he
    cases he

theorem partitionScan_iff (h : Fresh x) (hd : Hd) (frames : Nat) :
    Completes hd frames x ↔ Bounded (x.disk hd) frames x.extLbaBase := by
  refine ⟨h.bounded, ?_⟩
  rintro ⟨r, m, hread, hroom⟩
  obtain ⟨y, hrun, -⟩ := h.registered hread hroom
  exact ⟨y, hrun⟩

end

/-- One primary partition and one logical one, on two frames. -/
theorem partitionScan_iff_sample : Completes (0, 1) 2 sampleMachine := by
  have hfresh : Fresh sampleMachine := ⟨fun _ _ => rfl, rfl, rfl⟩
  refine (partitionScan_iff hfresh (0, 1) 2).2 ?_
  refine ⟨[.table 0, .primary ⟨2000, 1000⟩, .table 100, .logical ⟨101, 1000⟩], ⟨100, 1⟩, by decide +kernel, ?_⟩
  exact ⟨by decide, by decide, by decide⟩

/-! ## A table that names itself -/

/-- The first sector names the table in sector 1, and that one names itself. -/
def cyclicDisk : Bytes := putEntry (putEntry zeros 446 0x05 1 1) (512 + 446) 0x05 0 1

/-- By induction on the stack. -/
theorem reading_cyclic : ∀ depth, reading cyclicDisk depth 1 ⟨1, 0⟩ = none := by
  have htable : partitionTable (sector cyclicDisk 1) = [⟨0x05, 0, 1⟩, ⟨0, 0, 0⟩, ⟨0, 0, 0⟩, ⟨0, 0, 0⟩] := by decide +kernel
  intro depth
  induction depth with
  | zero => rfl
  | succ depth ih =>
    have hentries : readEntries (reading cyclicDisk depth) 1 (partitionTable (sector cyclicDisk 1)) ⟨1, 0⟩ = none := by
      rw [htable, readEntries, if_pos rfl, if_pos (by decide)]
      change joinReading (reading cyclicDisk depth 1 ⟨1, 0⟩) _ = none
      rw [ih]
      rfl
    unfold reading joinReading readOne
    rw [Option.bind_some]
    dsimp only
    rw [hentries]
    rfl

/-- No stack is deep enough. -/
theorem partitionScan_cycle :
    ¬ ∀ (hd : Hd) (x : Ide), Fresh x → ∃ frames, Completes hd frames x := by
  intro hall
  have hfresh : Fresh { sampleMachine with disk := fun _ => cyclicDisk } := ⟨fun _ _ => rfl, rfl, rfl⟩
  obtain ⟨frames, hc⟩ := hall (0, 1) _ hfresh
  obtain ⟨r, m, hread, -⟩ := hfresh.bounded hc
  have htable : partitionTable (sector cyclicDisk 0) = [⟨0x05, 1, 1⟩, ⟨0, 0, 0⟩, ⟨0, 0, 0⟩, ⟨0, 0, 0⟩] := by decide +kernel
  cases frames with
  | zero => cases hread
  | succ frames =>
    have hentries : readEntries (reading cyclicDisk frames) 0 (partitionTable (sector cyclicDisk 0)) ⟨0, 0⟩ = none := by
      rw [htable, readEntries, if_pos rfl, if_neg (by decide)]
      change joinReading (reading cyclicDisk frames 1 ⟨1, 0⟩) _ = none
      rw [reading_cyclic]
      rfl
    change reading cyclicDisk (frames + 1) 0 ⟨0, 0⟩ = some (r, m) at hread
    unfold reading joinReading readOne at hread
    rw [Option.bind_some] at hread
    dsimp only at hread
    rw [hentries] at hread
    cases hread

end Enix.Device
