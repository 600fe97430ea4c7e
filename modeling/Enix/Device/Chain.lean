import Enix.Device.PartTables

/-!
# The partitions of a single disk (`device/ide.c:294-351`)

A well-formed disk has one extended partition at most. The tables in it are a chain: the
first entry of each is a logical partition, the second one leads to the next table, and
the others are unused. Addresses of partitions are relative to their own table, and
addresses of tables to the start of the extended partition.

* `WellFormed.reads`: the tables of a well-formed disk give just its partitions.
* `partitionScan_numbers`: partitions are named by their places.
* `partitionScan_registers_iff`: all of them are registered, if no more than three are primary.
* `partitionScan_four`: with a fourth one an ASSERT fires.
-/
set_option autoImplicit false

namespace Enix.Device
open Enix.Core Enix.Kernel Enix.Fs Function

/-! ## Well-formed disks -/

/-- The table at `lba` holds the entries `e` and `q`. -/
def Ebr (disk : Bytes) (lba : Nat) (e q : Entry) : Prop :=
  ∃ r r', partitionTable (sector disk lba) = [e, q, r, r'] ∧ e.fsType ≠ 0x05 ∧ r.fsType = 0 ∧ r'.fsType = 0

/-- The chain that the entry `q` leads to, with a logical partition in each table. -/
inductive Links (disk : Bytes) (base : Nat) : Entry → List Nat → List Part → Prop
  | last {q : Entry} : q.fsType = 0 → Links disk base q [] []
  | next {q e q' : Entry} {lba : Nat} {lbas : List Nat} {ls : List Part} : q.fsType = 0x05 → lba = base + q.startLba →
      lba < 4294967296 → Ebr disk lba e q' → e.fsType ≠ 0 → lba + e.startLba < 4294967296 → Links disk base q' lbas ls →
      Links disk base q (lba :: lbas) (⟨lba + e.startLba, e.secCnt⟩ :: ls)

def own (lba : Nat) (e : Entry) : List Part := if e.fsType = 0 then [] else [⟨lba + e.startLba, e.secCnt⟩]

/-- The extended partition from `base` on. Its first table may be without a partition. -/
structure Area (disk : Bytes) (base : Nat) (e q : Entry) (lbas : List Nat) (ls : List Part) : Prop where
  first : Ebr disk base e q
  fits : ∀ p ∈ own base e, p.startLba < 4294967296
  links : Links disk base q lbas ls

/-- A disk with the primary partitions `ps`, the logical ones `ls`, and the tables of the latter at `lbas`. -/
structure WellFormed (disk : Bytes) (lbas : List Nat) (ps ls : List Part) : Prop where
  prims : ps = primaries (partitionTable (sector disk 0))
  area : (extended (partitionTable (sector disk 0)) = [] ∧ lbas = [] ∧ ls = []) ∨
    ∃ base e q lbas' ls', extended (partitionTable (sector disk 0)) = [base] ∧ base ≠ 0 ∧ Area disk base e q lbas' ls' ∧
      lbas = base :: lbas' ∧ ls = own base e ++ ls'
  eight : ls.length ≤ 8

/-- What is read are the tables at `lbas`, with the partitions `ps` and `ls`. -/
def Reads (o : Option (List Item × Mark)) (lbas : List Nat) (ps ls : List Part) (m : Mark) : Prop :=
  ∃ r, o = some (r, m) ∧ r.filterMap Item.lba? = lbas ∧ r.filterMap Item.primary? = ps ∧ r.filterMap Item.logical? = ls

section
variable {hd : Hd} {disk : Bytes} {o : Option (List Item × Mark)} {f : Mark → Option (List Item × Mark)}
  {table : Nat → Mark → Option (List Item × Mark)} {e q : Entry} {es : List Entry} {lbas lbas' : List Nat}
  {ps ps' ls ls' : List Part} {m m' : Mark} {base lba depth frames : Nat} {x y : Ide}

/-! ## What the tables give -/

theorem Reads.join (h : Reads o lbas ps ls m) (h' : Reads (f m) lbas' ps' ls' m') :
    Reads (joinReading o f) (lbas ++ lbas') (ps ++ ps') (ls ++ ls') m' := by
  obtain ⟨r, rfl, rfl, rfl, rfl⟩ := h
  obtain ⟨r', hf, rfl, rfl, rfl⟩ := h'
  refine ⟨r ++ r', ?_, List.filterMap_append, List.filterMap_append, List.filterMap_append⟩
  unfold joinReading
  rw [Option.bind_some]
  dsimp only
  rw [hf]
  rfl

theorem reads_nothing (m : Mark) : Reads (some ([], m)) [] [] [] m := ⟨[], rfl, rfl, rfl, rfl⟩

theorem reads_table (lba : Nat) (m : Mark) : Reads (readOne (.table lba) m) [lba] [] [] m := ⟨_, rfl, rfl, rfl, rfl⟩

theorem reads_primary (p : Part) (m : Mark) : Reads (readOne (.primary p) m) [] [p] [] m := ⟨_, rfl, rfl, rfl, rfl⟩

theorem reads_logical (p : Part) (m : Mark) : Reads (readOne (.logical p) m) [] [] [p] m := ⟨_, rfl, rfl, rfl, rfl⟩

theorem readEntries_unused (h : ∀ e ∈ es, e.fsType = 0) (lba : Nat) (m : Mark) : readEntries table lba es m = some ([], m) := by
  induction es with
  | nil => rfl
  | cons e es ih =>
    have h0 : e.fsType = 0 := h e List.mem_cons_self
    unfold readEntries
    rw [if_neg (by rw [h0]; decide), if_neg (not_not_intro h0)]
    exact ih fun e' he => h e' (List.mem_cons_of_mem _ he)

/-- The second half of a table, from the link on. -/
theorem readEntries_link {r r' : Entry} (hr : r.fsType = 0) (hr' : r'.fsType = 0) (hbase : m.base ≠ 0)
    (hq : q.fsType = 0 ∧ lbas = [] ∧ ls = [] ∧ m = m' ∨ q.fsType = 0x05 ∧ Reads (table (add32 q.startLba m.base) m) lbas [] ls m') :
    Reads (readEntries table lba [q, r, r'] m) lbas [] ls m' := by
  have hunused : ∀ e ∈ [r, r'], e.fsType = 0 := by
    intro e he
    simp only [List.mem_cons, List.not_mem_nil, or_false] at he
    obtain rfl | rfl := he
    · exact hr
    · exact hr'
  unfold readEntries
  obtain ⟨h0, rfl, rfl, rfl⟩ | ⟨h5, htable⟩ := hq
  · rw [if_neg (by rw [h0]; decide), if_neg (not_not_intro h0), readEntries_unused hunused]
    exact reads_nothing m
  · rw [if_pos h5, if_pos hbase]
    have hjoin := htable.join (f := readEntries table lba [r, r']) (by
      rw [readEntries_unused hunused]
      exact reads_nothing m')
    rwa [List.append_nil, List.append_nil, List.append_nil] at hjoin

/-- What a link leads to, before which `logs` logical partitions have been read. -/
def Leads (disk : Bytes) (base depth : Nat) (q : Entry) (lbas : List Nat) (ls : List Part) (logs : Nat) : Prop :=
  q.fsType = 0 ∧ lbas = [] ∧ ls = [] ∨
    q.fsType = 0x05 ∧ Reads (reading disk depth (add32 q.startLba base) ⟨base, logs⟩) lbas [] ls ⟨base, logs + ls.length⟩

/-- A table of the chain, with what its link leads to. -/
theorem Ebr.reads {logs : Nat} (h : Ebr disk lba e q) (hlba : lba ≠ 0) (hbase : base ≠ 0)
    (hfits : ∀ p ∈ own lba e, p.startLba < 4294967296) (hroom : logs + (own lba e ++ ls).length ≤ 8) (hnil : ls = [] → lbas = [])
    (hq : ∀ logs, logs + ls.length ≤ 8 → Leads disk base depth q lbas ls logs) :
    Reads (reading disk (depth + 1) lba ⟨base, logs⟩) (lba :: lbas) [] (own lba e ++ ls)
      ⟨base, logs + (own lba e ++ ls).length⟩ := by
  obtain ⟨r, r', htab, h5, hr, hr'⟩ := h
  have hlink : ∀ logs, logs + ls.length ≤ 8 →
      Reads (readEntries (reading disk depth) lba [q, r, r'] ⟨base, logs⟩) lbas [] ls ⟨base, logs + ls.length⟩ := by
    intro logs hl
    refine readEntries_link hr hr' hbase ?_
    obtain ⟨h0, rfl, rfl⟩ | h5 := hq logs hl
    · exact .inl ⟨h0, rfl, rfl, rfl⟩
    · exact .inr h5
  unfold reading
  rw [htab]
  change Reads _ ([lba] ++ lbas) ([] ++ []) ([] ++ (own lba e ++ ls)) _
  refine (reads_table lba _).join ?_
  unfold readEntries
  rw [if_neg h5]
  unfold own at hfits hroom ⊢
  by_cases h0 : e.fsType = 0
  · rw [if_pos h0] at hroom ⊢
    rw [if_neg (not_not_intro h0)]
    exact hlink logs hroom
  · rw [if_neg h0] at hfits hroom ⊢
    rw [if_pos h0, if_neg hlba]
    have hpart : entryPart lba e = ⟨lba + e.startLba, e.secCnt⟩ := by
      unfold entryPart add32
      rw [Nat.mod_eq_of_lt (hfits _ (List.mem_singleton.2 rfl))]
    rw [hpart]
    rw [List.length_append, List.length_singleton] at hroom ⊢
    rw [← Nat.add_assoc]
    change Reads _ ([] ++ lbas) ([] ++ []) _ _
    refine (reads_logical _ _).join ?_
    change Reads (if 8 ≤ logs + 1 then some ([], ⟨base, logs + 1⟩)
      else readEntries (reading disk depth) lba [q, r, r'] ⟨base, logs + 1⟩) _ _ _ _
    by_cases hfull : 8 ≤ logs + 1
    · -- the eighth: nothing is left in the chain
      have hls : ls = [] := List.length_eq_zero_iff.1 (by omega)
      rw [if_pos hfull, hnil hls, hls]
      exact reads_nothing _
    · rw [if_neg hfull]
      exact hlink (logs + 1) (by omega)

theorem Links.nil (h : Links disk base q lbas ls) (hls : ls = []) : lbas = [] := by
  cases h with
  | last => rfl
  | next => cases hls

/-- By induction on the chain. -/
theorem Links.leads (h : Links disk base q lbas ls) (hbase : base ≠ 0) :
    ∀ depth logs, lbas.length ≤ depth → logs + ls.length ≤ 8 → Leads disk base depth q lbas ls logs := by
  induction h with
  | last h0 => exact fun _ _ _ _ => .inl ⟨h0, rfl, rfl⟩
  | @next q e q' lba lbas ls h5 hlba hlt htab h0 hfits hrest ih =>
    intro depth logs hdepth hroom
    rw [List.length_cons] at hdepth
    obtain ⟨depth, rfl⟩ : ∃ n, depth = n + 1 := ⟨depth - 1, by omega⟩
    have hown : own lba e = [⟨lba + e.startLba, e.secCnt⟩] := by
      unfold own
      rw [if_neg h0]
    have hcons : (⟨lba + e.startLba, e.secCnt⟩ :: ls : List Part) = own lba e ++ ls := by
      rw [hown]
      rfl
    have hadd : add32 q.startLba base = lba := by
      unfold add32
      rw [Nat.mod_eq_of_lt (by omega), Nat.add_comm, hlba]
    refine .inr ⟨h5, ?_⟩
    rw [hadd]
    rw [hcons] at hroom ⊢
    refine htab.reads (by omega) hbase (fun p hp => ?_) hroom hrest.nil fun logs hl => ih depth logs (by omega) hl
    rw [hown, List.mem_singleton] at hp
    rw [hp]
    exact hfits

theorem Area.reads {lbas : List Nat} {ls : List Part} {logs : Nat} (h : Area disk base e q lbas ls) (hbase : base ≠ 0)
    (hdepth : lbas.length < depth) (hroom : logs + (own base e ++ ls).length ≤ 8) :
    Reads (reading disk depth base ⟨base, logs⟩) (base :: lbas) [] (own base e ++ ls)
      ⟨base, logs + (own base e ++ ls).length⟩ := by
  obtain ⟨depth, rfl⟩ : ∃ n, depth = n + 1 := ⟨depth - 1, by omega⟩
  exact h.first.reads hbase hbase h.fits hroom h.links.nil fun logs hl => h.links.leads hbase depth logs (by omega) hl

/-- The entries of the first table, by induction on them. -/
theorem readEntries_first : ∀ (es : List Entry) (lbas : List Nat) (ls : List Part) (m : Mark),
    (∀ e ∈ es, e.startLba < 4294967296) →
    (extended es = [] ∧ lbas = [] ∧ ls = []) ∨ (∃ base m', extended es = [base] ∧ m.base = 0 ∧
      Reads (table base { m with base := base }) lbas [] ls m') →
    ∃ m', Reads (readEntries table 0 es m) lbas (primaries es) ls m' := by
  intro es
  induction es with
  | nil =>
    rintro lbas ls m - (⟨-, rfl, rfl⟩ | ⟨base, m', hext, -⟩)
    · exact ⟨m, reads_nothing m⟩
    · cases hext
  | cons e es ih =>
    intro lbas ls m hlt hext
    have hlt' : ∀ e ∈ es, e.startLba < 4294967296 := fun e' he => hlt e' (List.mem_cons_of_mem _ he)
    unfold readEntries
    rw [extended_cons] at hext
    rw [primaries_cons]
    by_cases h5 : e.fsType = 0x05
    · rw [if_pos h5] at hext
      obtain ⟨hno, -⟩ | ⟨base, m', hext, h0, htable⟩ := hext
      · cases hno
      obtain ⟨rfl, hnil⟩ := List.cons_eq_cons.1 hext
      rw [if_pos h5, if_neg (not_not_intro h0), if_neg fun h => h.1 h5]
      obtain ⟨m'', hrest⟩ := ih [] [] m' hlt' (.inl ⟨hnil, rfl, rfl⟩)
      have hjoin := htable.join hrest
      rw [List.append_nil, List.append_nil] at hjoin
      exact ⟨m'', hjoin⟩
    · rw [if_neg h5] at hext ⊢
      obtain ⟨m', hrest⟩ := ih lbas ls m hlt' hext
      by_cases h0 : e.fsType ≠ 0
      · have hpart : entryPart 0 e = ⟨e.startLba, e.secCnt⟩ := by
          unfold entryPart add32
          rw [Nat.zero_add, Nat.mod_eq_of_lt (hlt e List.mem_cons_self)]
        rw [if_pos h0, if_pos rfl, if_pos ⟨h5, h0⟩, hpart]
        exact ⟨m', (reads_primary _ m).join hrest⟩
      · rw [if_neg h0, if_neg fun h => h0 h.2]
        exact ⟨m', hrest⟩

/-- What there is to read on a well-formed disk, on a stack with a frame for each table. -/
theorem WellFormed.reads (h : WellFormed disk lbas ps ls) (hf : lbas.length < frames) :
    ∃ m, Reads (reading disk frames 0 ⟨0, 0⟩) (0 :: lbas) ps ls m := by
  obtain ⟨frames, rfl⟩ : ∃ n, frames = n + 1 := ⟨frames - 1, by omega⟩
  have hlt : ∀ e ∈ partitionTable (sector disk 0), e.startLba < 4294967296 := by
    intro e he
    simp only [partitionTable, List.mem_cons, List.not_mem_nil, or_false] at he
    obtain rfl | rfl | rfl | rfl := he
    all_goals exact le32_lt _ _
  have hentries : ∃ m, Reads (readEntries (reading disk frames) 0 (partitionTable (sector disk 0)) ⟨0, 0⟩) lbas ps ls m := by
    rw [h.prims]
    refine readEntries_first _ lbas ls ⟨0, 0⟩ hlt ?_
    obtain hno | ⟨base, e, q, lbas', ls', hext, hbase, harea, rfl, rfl⟩ := h.area
    · exact .inl hno
    · rw [List.length_cons] at hf
      exact .inr ⟨base, _, hext, rfl, harea.reads hbase (by omega) (by rw [Nat.zero_add]; exact h.eight)⟩
  obtain ⟨m, hm⟩ := hentries
  refine ⟨m, ?_⟩
  unfold reading
  exact (reads_table 0 _).join hm

/-! ## Names -/

/-- Partitions are named by their places: `prim_parts` from 1 on, and `logic_parts` from 5 on. -/
structure Numbered (hd : Hd) (x : Ide) : Prop where
  pNo : x.pNo ≤ 4
  names : ∀ i, i < x.pNo ∨ 4 ≤ i ∧ i < 4 + x.lNo → x.names hd i = partName hd (i + 1)

theorem onDisk_numbered {α : Type} (k : K α) (h : Numbered hd x) :
    runs (fun _ => True) (onDisk hd k) (fun _ y => Numbered hd y) x := by
  unfold runs onDisk
  cases exec device k x.mem ⟨x.disk hd, x.heap⟩ with
  | ok r => exact ⟨h.pNo, h.names⟩
  | error _ => trivial

theorem addPrimary_numbered (lba : Nat) (e : Entry) (h : Numbered hd x) :
    runs (fun _ => True) (addPrimary hd lba e) (fun _ y => Numbered hd y) x := by
  unfold addPrimary
  rw [runs_read_bind]
  refine runs_guard_bind (fun _ => trivial) fun hp => ?_
  rw [runs_change_bind]
  refine runs_guard (fun _ => trivial) fun _ => ⟨hp, fun i hi => ?_⟩
  change update x.names hd _ hd i = _
  rw [update_self]
  by_cases hnew : i = x.pNo
  · rw [hnew, update_self]
  · rw [update_of_ne hnew]
    refine h.names i (hi.imp_left fun hlt => ?_)
    exact Nat.lt_of_le_of_ne (Nat.le_of_lt_succ hlt) hnew

theorem addLogic_numbered (lba : Nat) (e : Entry) (h : Numbered hd x) :
    runs (fun _ => True) (addLogic hd lba e) (fun _ y => Numbered hd y) x := by
  unfold addLogic
  rw [runs_read_bind]
  refine runs_guard_bind (fun _ => trivial) fun _ => ?_
  rw [runs_change]
  refine ⟨h.pNo, fun i hi => ?_⟩
  change update x.names hd _ hd i = _
  rw [update_self]
  by_cases hnew : i = 4 + x.lNo
  · rw [hnew, update_self, Nat.add_right_comm, Nat.add_comm]
  · rw [update_of_ne hnew]
    refine h.names i (hi.imp_right fun hlt => ⟨hlt.1, ?_⟩)
    exact Nat.lt_of_le_of_ne (Nat.le_of_lt_succ hlt.2) hnew

theorem scanEntries_numbered {scan : Nat → I Unit}
    (hscan : ∀ lba x, Numbered hd x → runs (fun _ => True) (scan lba) (fun _ y => Numbered hd y) x) (lba : Nat) :
    ∀ (es : List Entry) (x : Ide), Numbered hd x →
      runs (fun _ => True) (scanEntries scan hd lba es) (fun _ y => Numbered hd y) x := by
  intro es
  induction es with
  | nil => exact fun x hx => hx
  | cons e es ih =>
    intro x hx
    unfold scanEntries
    refine runs_ite (fun _ => ?_) fun _ => runs_ite (fun _ => runs_ite (fun _ => ?_) fun _ => ?_) fun _ => ih x hx
    · rw [runs_read_bind]
      refine runs_ite (fun _ => runs_seq (hscan _ x hx) fun _ y hy => ih y hy) fun _ => ?_
      rw [runs_change_bind]
      exact runs_seq (hscan _ _ ⟨hx.pNo, hx.names⟩) fun _ y hy => ih y hy
    · exact runs_seq (addPrimary_numbered lba e hx) fun _ y hy => ih y hy
    · refine runs_seq (addLogic_numbered lba e hx) fun _ y hy => ?_
      rw [runs_read_bind]
      exact runs_ite (fun _ => hy) fun _ => ih y hy

theorem partitionScan_numbered : ∀ (frames lba : Nat) (x : Ide), Numbered hd x →
    runs (fun _ => True) (partitionScan hd frames lba) (fun _ y => Numbered hd y) x := by
  intro frames
  induction frames with
  | zero => exact fun _ _ _ => trivial
  | succ frames ih =>
    intro lba x hx
    unfold partitionScan
    refine runs_seq (onDisk_numbered _ hx) fun _ y hy => runs_seq (onDisk_numbered _ hy) fun buf z hz => ?_
    refine runs_seq (scanEntries_numbered ih lba _ z hz) fun b w hw => ?_
    exact runs_ite (fun _ => onDisk_numbered _ hw) fun _ => hw

/-! ## The scan of a well-formed disk -/

/-- `partition_scan(hd, 0)` returns, and has registered the primary partitions `ps` and the
logical ones `ls`, each once and under its number. -/
def ScanRegisters (hd : Hd) (frames : Nat) (ps ls : List Part) (x : Ide) : Prop :=
  ∃ y, partitionScan hd frames 0 x = .ok ((), y) ∧ Added hd ps ls x y ∧ Numbered hd y

theorem room_reads {r : List Item} (hlbas : r.filterMap Item.lba? = 0 :: lbas) (hps : r.filterMap Item.primary? = ps)
    (hls : r.filterMap Item.logical? = ls) (height : ls.length ≤ 8) :
    Room 0 0 r ↔ ps.length ≤ 3 ∧ ∀ lba ∈ lbas, lba ≤ maxLba := by
  constructor
  · intro h
    have hprims := h.prims
    rw [hps, Nat.zero_add] at hprims
    refine ⟨hprims, fun lba hl => h.tables lba ?_⟩
    rw [hlbas]
    exact List.mem_cons_of_mem _ hl
  · rintro ⟨hp, hl⟩
    refine ⟨fun lba hm => ?_, by rwa [hps, Nat.zero_add], by rwa [hls, Nat.zero_add]⟩
    rw [hlbas] at hm
    obtain rfl | hm := List.mem_cons.1 hm
    · exact Nat.zero_le _
    · exact hl lba hm

/-- What a scan that returns says about the disk. -/
theorem ScanRegisters.room (h : ScanRegisters hd frames ps' ls' x) (hx : Fresh x) (hbase : x.extLbaBase = 0)
    (hw : WellFormed (x.disk hd) lbas ps ls) (hf : lbas.length < frames) :
    ps.length ≤ 3 ∧ ∀ lba ∈ lbas, lba ≤ maxLba := by
  obtain ⟨y, hrun, -⟩ := h
  obtain ⟨m, r, hread, hlbas, hps, hls⟩ := hw.reads hf
  obtain ⟨r', m', hr, hroom⟩ := hx.bounded ⟨y, hrun⟩
  rw [hbase, hread] at hr
  cases hr
  exact (room_reads hlbas hps hls hw.eight).1 hroom

theorem partitionScan_registers_iff (hd : Hd) (hx : Fresh x) (hbase : x.extLbaBase = 0) (hw : WellFormed (x.disk hd) lbas ps ls)
    (hf : lbas.length < frames) :
    ScanRegisters hd frames ps ls x ↔ ps.length ≤ 3 ∧ ∀ lba ∈ lbas, lba ≤ maxLba := by
  refine ⟨fun h => h.room hx hbase hw hf, fun h => ?_⟩
  obtain ⟨m, r, hread, hlbas, hps, hls⟩ := hw.reads hf
  have hread' : reading (x.disk hd) frames 0 ⟨x.extLbaBase, 0⟩ = some (r, m) := by
    rw [hbase]
    exact hread
  obtain ⟨y, hrun, hreg⟩ := hx.registered hread' ((room_reads hlbas hps hls hw.eight).2 h)
  have hadd := hreg.added
  rw [hps, hls] at hadd
  have hzero : Numbered hd x := by
    refine ⟨by rw [hx.pNo]; decide, fun i hi => ?_⟩
    rw [hx.pNo, hx.lNo] at hi
    omega
  exact ⟨y, hrun, hadd, (runs_ok hrun).1 (partitionScan_numbered frames 0 x hzero)⟩

end

/-- A primary partition, and a logical one in the table at sector 100. -/
theorem partitionScan_registers_sample : ScanRegisters (0, 1) 2 [⟨2000, 1000⟩] [⟨101, 1000⟩] sampleMachine := by
  have hw : WellFormed (sampleMachine.disk (0, 1)) [100] [⟨2000, 1000⟩] [⟨101, 1000⟩] := by
    refine ⟨by decide +kernel, .inr ⟨100, ⟨0x83, 1, 1000⟩, ⟨0, 0, 0⟩, [], [], by decide +kernel, by decide, ?_, rfl, rfl⟩, by decide⟩
    exact ⟨⟨⟨0, 0, 0⟩, ⟨0, 0, 0⟩, by decide +kernel, by decide, rfl, rfl⟩, by decide, .last rfl⟩
  exact (partitionScan_registers_iff (0, 1) ⟨fun _ _ => rfl, rfl, rfl⟩ rfl hw (by decide)).2 ⟨by decide, by decide⟩

/-- Four primary partitions. -/
def fourPrimaries : Bytes :=
  putEntry (putEntry (putEntry (putEntry zeros 446 0x83 1 9) 462 0x83 10 9) 478 0x83 20 9) 494 0x83 30 9

/-- `ASSERT(p_no < 4)` comes behind the increment. -/
theorem partitionScan_four : ¬ ∀ (hd : Hd) (x : Ide) (frames : Nat) (lbas : List Nat) (ps ls : List Part), Fresh x →
    x.extLbaBase = 0 → WellFormed (x.disk hd) lbas ps ls → ps.length ≤ 4 → lbas.length < frames →
    ScanRegisters hd frames ps ls x := by
  intro hall
  have hx : Fresh { sampleMachine with disk := fun _ => fourPrimaries } := ⟨fun _ _ => rfl, rfl, rfl⟩
  have hw : WellFormed fourPrimaries [] [⟨1, 9⟩, ⟨10, 9⟩, ⟨20, 9⟩, ⟨30, 9⟩] [] :=
    ⟨by decide +kernel, .inl ⟨by decide +kernel, rfl, rfl⟩, by decide⟩
  have hrun := hall (0, 1) _ 1 [] _ [] hx rfl hw (by decide) (by decide)
  exact absurd (hrun.room hx rfl hw (by decide)).1 (by decide)

end Enix.Device
