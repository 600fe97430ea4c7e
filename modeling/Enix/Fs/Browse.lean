import Enix.Fs.Handles
import Enix.Fs.Release

/-!
# Looking around

A walk along a path opens directories and closes them again. `Browse h` adds
to `Held h` that nothing else has happened: the disk is as it was, and every
number stands for the same file, whether its inode is in memory or in its
slot. Runs under `Browse` are total.

* `Browse.exec_inodeOpen`, `Browse.exec_inodeClose`.
-/
set_option autoImplicit false

namespace Enix.Fs
open Enix.Core Enix.Kernel

/-- What an inode says about its file. -/
def Inode.file (x : Inode) : Nat × Nat × (Nat → Nat) := (x.iNo, x.iSize, x.iSectors)

/-! ## `open_inodes` -/

section
variable {s s' : Mem} {d d' : Dev} {n : Nat} {p q : Ptr} {x : Inode}

/-- Is the inode at `p` number `n`? -/
def hasNo (s : Mem) (n : Nat) (p : Ptr) : Bool := (s.inodes p).any fun x => x.iNo == n

theorem hasNo_some (hx : s.inodes p = some x) : hasNo s n p = true ↔ x.iNo = n := by
  unfold hasNo
  rw [hx]
  simp

theorem find?_erase {f : Ptr → Bool} {l : List Ptr} (h : f p = false) : (l.erase p).find? f = l.find? f := by
  induction l with
  | nil => rfl
  | cons a l ih =>
    by_cases ha : a = p
    · subst ha
      rw [List.erase_cons_head, List.find?_cons, h]
    · rw [List.erase_cons_tail (by simpa using ha), List.find?_cons, List.find?_cons, ih]

theorem Mem.loaded_self (s : Mem) (p : Ptr) (x : Inode) :
    (Mem.loaded s p x).inodes p = some { x with iOpenCnts := 1 } := upd_self _ _ _

theorem Mem.loaded_ne (x : Inode) (h : q ≠ p) : (Mem.loaded s p x).inodes q = s.inodes q := upd_ne h

theorem Mem.unloaded_ne (h : q ≠ p) : (Mem.unloaded s p).inodes q = s.inodes q := upd_ne h

/-- Another inode in front does not matter. -/
theorem findOpen_loaded (hp : p ∉ s.curPart.openInodes) (m : Nat) :
    findOpen (Mem.loaded s p x) m = if x.iNo = m then some p else findOpen s m := by
  have hself : hasNo (Mem.loaded s p x) m p = decide (x.iNo = m) := by
    unfold hasNo
    rw [Mem.loaded_self]
    by_cases h : x.iNo = m <;> simp [h]
  show (p :: s.curPart.openInodes).find? (hasNo (Mem.loaded s p x) m) = _
  rw [List.find?_cons, hself]
  by_cases hm : x.iNo = m
  · simp [hm]
  · simp only [hm, decide_false, if_false]
    refine List.find?_congr fun q hq => ?_
    have hne : q ≠ p := by rintro rfl; exact hp hq
    unfold hasNo
    rw [Mem.loaded_ne x hne]

/-- A count does not matter. -/
theorem findOpen_setCnt (hx : s.inodes p = some x) {y : Inode} (hy : y.iNo = x.iNo) (m : Nat) :
    findOpen (Mem.setInode s p y) m = findOpen s m := by
  refine findOpen_congr rfl fun q _ => ?_
  by_cases hq : q = p
  · subst hq
    rw [Mem.setInode_self, hx, Option.map_some, Option.map_some, hy]
  · rw [Mem.setInode_ne s y hq]

/-- An inode that is gone is found no more; the others are. -/
theorem findOpen_unloaded (hc : CacheOk s d) (hd : s.curPart.openInodes.Nodup) (hx : s.inodes p = some x)
    (hp : p ∈ s.curPart.openInodes) (m : Nat) :
    findOpen (Mem.unloaded s p) m = if x.iNo = m then none else findOpen s m := by
  have hrest : ∀ q ∈ s.curPart.openInodes.erase p, hasNo (Mem.unloaded s p) m q = hasNo s m q := by
    intro q hq
    have hne : q ≠ p := by rintro rfl; exact hd.not_mem_erase hq
    unfold hasNo
    rw [Mem.unloaded_ne hne]
  show (s.curPart.openInodes.erase p).find? (hasNo (Mem.unloaded s p) m) = _
  rw [List.find?_congr hrest]
  by_cases hm : x.iNo = m
  · rw [if_pos hm, List.find?_eq_none]
    intro q hq hno
    have hmem := List.mem_of_mem_erase hq
    obtain ⟨-, y, hy, -⟩ := hc.cached q hmem
    rw [hasNo_some hy] at hno
    obtain rfl := hc.unique q hmem p hp y x hy hx (hno.trans hm.symm)
    exact hd.not_mem_erase hq
  · rw [if_neg hm]
    refine find?_erase ?_
    rw [Bool.eq_false_iff, Ne, hasNo_some hx]
    exact hm

end

/-! ## The relation -/

structure Browse (h : Ptr → Nat) (s₀ : Mem) (d₀ : Dev) (s : Mem) (d : Dev) : Prop extends Held h s₀ d₀ s d where
  part : ∃ l, s.curPart = { s₀.curPart with openInodes := l }
  pipes : s.pipes = s₀.pipes
  disk : d.disk = d₀.disk
  cache : CacheOk s d
  nodup : s.curPart.openInodes.Nodup
  file : ∀ n, Inode.file (inodeOf s d.disk n) = Inode.file (inodeOf s₀ d₀.disk n)
  loaded : ∀ p ∈ s.curPart.openInodes, ∀ x, s.inodes p = some x → s₀.inodes p = none →
    Inode.file x = Inode.file (diskInode d₀.disk s₀.curPart.sb.inodeTableLba x.iNo)

section
variable {h : Ptr → Nat} {s₀ s s' : Mem} {d₀ d d' : Dev} {p : Ptr} {n : Nat} {x : Inode}

theorem Browse.refl (hs : InodesOk s d) (hc : CacheOk s d) (hd : s.curPart.openInodes.Nodup) :
    Browse (fun _ => 0) s d s d where
  toHeld := Held.refl hs
  part := ⟨_, rfl⟩
  pipes := rfl
  disk := rfl
  cache := hc
  nodup := hd
  file _ := rfl
  loaded p hp x hx hnone := by rw [hnone] at hx; cases hx

theorem Browse.sb (hb : Browse h s₀ d₀ s d) : s.curPart.sb = s₀.curPart.sb := by
  obtain ⟨l, hl⟩ := hb.part
  rw [hl]

theorem Browse.tableOk (hb : Browse h s₀ d₀ s d) (ht : TableOk s₀) : TableOk s := by
  obtain ⟨l, hl⟩ := hb.part
  constructor <;> rw [hl]
  · exact ht.part
  · exact ht.disk

theorem Browse.heapOk (hb : Browse h s₀ d₀ s d) (ha : HeapOk d₀) : HeapOk d := fun n hn => by
  rw [hb.heap.ok]
  exact ha n (Nat.le_trans hb.heap.brk hn)

/-- The inode behind a number that is in memory. -/
theorem Browse.found (hb : Browse h s₀ d₀ s d) (hf : findOpen s n = some p) :
    ∃ x, s.inodes p = some x ∧ x.iNo = n ∧ Inode.file x = Inode.file (inodeOf s₀ d₀.disk n) := by
  obtain ⟨-, x, hx, hn⟩ := findOpen_some hf
  refine ⟨x, hx, hn, ?_⟩
  rw [← hb.file n, inodeOf_cached hf hx]

/-- A count changes. -/
theorem Browse.setCnt {h' : Ptr → Nat} (hb : Browse h s₀ d₀ s d) (hx : s.inodes p = some x) {c : Nat}
    (hc : 0 < c ∧ c < 4294967296) (hd : d'.disk = d.disk) (hbrk : HeapLe d d')
    (hh : Held h' s₀ d₀ (Mem.setInode s p { x with iOpenCnts := c }) d') :
    Browse h' s₀ d₀ (Mem.setInode s p { x with iOpenCnts := c }) d' := by
  have hno : ∀ q, ((Mem.setInode s p { x with iOpenCnts := c }).inodes q).map Inode.file =
      (s.inodes q).map Inode.file := fun q => by
    by_cases hq : q = p
    · subst hq; rw [Mem.setInode_self, hx]; rfl
    · rw [Mem.setInode_ne s _ hq]
  have hsame : ∀ {q y}, (Mem.setInode s p { x with iOpenCnts := c }).inodes q = some y →
      ∃ z, s.inodes q = some z ∧ Inode.file y = Inode.file z := fun {q y} hy => by
    have := hno q
    rw [hy] at this
    obtain ⟨z, hz, he⟩ := Option.map_eq_some_iff.1 this.symm
    exact ⟨z, hz, he.symm⟩
  have hfind : ∀ m, findOpen (Mem.setInode s p { x with iOpenCnts := c }) m = findOpen s m :=
    findOpen_setCnt hx rfl
  exact {
    hh with
    part := hb.part
    pipes := hb.pipes
    disk := hd.trans hb.disk
    cache :=
      { cached := fun q hq => by
          obtain ⟨h1, y, hy, h2, h3⟩ := hb.cache.cached q hq
          refine ⟨Nat.lt_of_lt_of_le h1 hbrk.brk, ?_⟩
          by_cases hqp : q = p
          · subst hqp
            exact ⟨_, Mem.setInode_self s q _, hc⟩
          · exact ⟨y, (Mem.setInode_ne s _ hqp).trans hy, h2, h3⟩
        unique := fun q hq r hr y z hy hz hyz => by
          obtain ⟨y', hy', hf⟩ := hsame hy
          obtain ⟨z', hz', hf'⟩ := hsame hz
          have h1 : y.iNo = y'.iNo := congrArg Prod.fst hf
          have h2 : z.iNo = z'.iNo := congrArg Prod.fst hf'
          exact hb.cache.unique q hq r hr y' z' hy' hz' (by rw [← h1, ← h2]; exact hyz) }
    nodup := hb.nodup
    file := fun m => by
      rw [← hb.file m, hd]
      cases hf : findOpen s m with
      | none =>
        rw [inodeOf_slot hf, inodeOf_slot ((hfind m).trans hf)]
        rfl
      | some q =>
        obtain ⟨-, y, hy, -⟩ := findOpen_some hf
        rw [inodeOf_cached hf hy]
        have hf' := (hfind m).trans hf
        obtain ⟨-, y', hy', -⟩ := findOpen_some hf'
        rw [inodeOf_cached hf' hy']
        obtain ⟨z, hz, he⟩ := hsame hy'
        rw [hy] at hz; cases hz
        exact he
    loaded := fun q hq y hy hnone => by
      obtain ⟨z, hz, he⟩ := hsame hy
      have hn : y.iNo = z.iNo := congrArg Prod.fst he
      rw [he, hn]
      exact hb.loaded q hq z hz hnone }

/-! ## Opening and closing -/

theorem Browse.exec_inodeOpen (hb : Browse h s₀ d₀ s d) (ha : HeapOk d₀) (ht : TableOk s₀)
    (hr : ∀ p, Fs.users s₀ p + h p + 1 < 4294967296) (hn : n < 4096)
    (hno : (inodeOf s₀ d₀.disk n).iNo = n) (cur : Pid) : ∃ p s' d',
      exec device (inodeOpen cur n) s d = .ok (p, s', d') ∧ Browse (plus h p) s₀ d₀ s' d' ∧
      findOpen s' n = some p := by
  have hpart := ends_inodeOpen hb.toHeld hr cur n
  cases hf : findOpen s n with
  | some p =>
    obtain ⟨hmem, x, hx, hxn⟩ := findOpen_some hf
    have he := exec_inodeOpen_hit (d := d) cur hf hx
    have hheld := (wp_exec hpart he).1
    have hu := hb.users p
    rw [users_some hx] at hu
    have hroom := hr p
    have hcnt : succCnt x.iOpenCnts = x.iOpenCnts + 1 := by unfold succCnt; omega
    exact ⟨p, _, d, he, hb.setCnt hx ⟨by omega, by omega⟩ rfl ⟨rfl, Nat.le_refl _⟩ hheld,
      (findOpen_setCnt (y := { x with iOpenCnts := succCnt x.iOpenCnts }) hx rfl n).trans hf⟩
  | none =>
    have he := exec_inodeOpen_miss cur (hb.tableOk ht) hn (hb.heapOk ha) hf
    have hheld := (wp_exec hpart he).1
    have hslot : diskInode d.disk s.curPart.sb.inodeTableLba n = inodeOf s d.disk n := (inodeOf_slot hf _).symm
    have hfile := hb.file n
    have hxn : (inodeOf s d.disk n).iNo = n := (congrArg Prod.fst hfile).trans hno
    rw [hslot] at he hheld
    have hnew : d.heap.brk ∉ s.curPart.openInodes := fun hmem =>
      absurd (hb.cache.cached _ hmem).1 (Nat.lt_irrefl _)
    have hfind := findOpen_loaded (x := inodeOf s d.disk n) hnew
    rw [hxn] at hfind
    have hbrk : d.heap.brk < (Dev.loaded d cur).heap.brk := by
      show d.heap.brk < d.heap.brk + 1 + 1
      omega
    generalize hx : inodeOf s d.disk n = x at he hheld hxn hfind hslot hfile
    have hself := Mem.loaded_self s d.heap.brk x
    have hother := fun {q} => Mem.loaded_ne (s := s) (p := d.heap.brk) (q := q) x
    have hneq : ∀ {q}, q ∈ s.curPart.openInodes → q ≠ d.heap.brk := fun hq he => hnew (he ▸ hq)
    refine ⟨_, _, _, he, ?_, by rw [hfind, if_pos rfl]⟩
    exact {
      hheld with
      part := by
        obtain ⟨l, hl⟩ := hb.part
        refine ⟨d.heap.brk :: s.curPart.openInodes, ?_⟩
        unfold Mem.loaded
        rw [hl]
      pipes := hb.pipes
      disk := hb.disk
      cache :=
        { cached := fun q hq => by
            rcases List.mem_cons.1 hq with rfl | hq
            · exact ⟨hbrk, _, hself, Nat.one_pos, Nat.lt_of_sub_eq_succ rfl⟩
            · obtain ⟨h1, y, hy, h2⟩ := hb.cache.cached q hq
              exact ⟨Nat.lt_trans h1 hbrk, y, (hother (hneq hq)).trans hy, h2⟩
          unique := fun q hq r hr y z hy hz hyz => by
            have hclash : ∀ {q y}, q ∈ s.curPart.openInodes → s.inodes q = some y → y.iNo ≠ x.iNo := by
              intro q y hq hy hyx
              have := findOpen_eq hb.cache hq hy (hyx.trans hxn)
              rw [hf] at this; cases this
            rcases List.mem_cons.1 hq with rfl | hq <;> rcases List.mem_cons.1 hr with rfl | hr
            · rfl
            · rw [hself] at hy; cases hy
              rw [hother (hneq hr)] at hz
              exact absurd hyz.symm (hclash hr hz)
            · rw [hself] at hz; cases hz
              rw [hother (hneq hq)] at hy
              exact absurd hyz (hclash hq hy)
            · rw [hother (hneq hq)] at hy
              rw [hother (hneq hr)] at hz
              exact hb.cache.unique q hq r hr y z hy hz hyz }
      nodup := List.nodup_cons.2 ⟨hnew, hb.nodup⟩
      file := fun m => by
        rw [← hb.file m]
        by_cases hm : n = m
        · subst hm
          rw [inodeOf_cached (by rw [hfind, if_pos rfl]) hself, hx]
          rfl
        · have hm' := hfind m
          rw [if_neg hm] at hm'
          cases hfm : findOpen s m with
          | none => rw [inodeOf_slot hfm, inodeOf_slot (hm'.trans hfm)]; rfl
          | some q =>
            obtain ⟨hq, y, hy, -⟩ := findOpen_some hfm
            rw [inodeOf_cached hfm hy, inodeOf_cached (hm'.trans hfm) ((hother (hneq hq)).trans hy)]
      loaded := fun q hq y hy hnone => by
        rcases List.mem_cons.1 hq with rfl | hq
        · rw [hself] at hy; cases hy
          show Inode.file x = Inode.file (diskInode d₀.disk s₀.curPart.sb.inodeTableLba x.iNo)
          rw [hxn, ← hslot, hb.disk, hb.sb]
        · rw [hother (hneq hq)] at hy
          exact hb.loaded q hq y hy hnone }

theorem Browse.exec_inodeClose (hb : Browse (plus h p) s₀ d₀ s d) (hp : p ∈ s.curPart.openInodes) : ∃ s' d',
    exec device (inodeClose p) s d = .ok ((), s', d') ∧ Browse h s₀ d₀ s' d' := by
  have hpart := @ends_inodeClose s d p hb.ok
  obtain ⟨-, x, hx, hpos, hlt⟩ := hb.cache.cached p hp
  have hpred : predCnt x.iOpenCnts = x.iOpenCnts - 1 := by unfold predCnt; rw [if_neg (by omega)]
  by_cases hlast : predCnt x.iOpenCnts = 0
  · have he := exec_inodeClose_last (d := d) hx hlast
    have hdrop := wp_exec hpart he
    have hheld := hb.toHeld.drop hdrop
    have hu := hb.users p
    rw [users_some hx, plus_self] at hu
    have hnone : s₀.inodes p = none := hb.start.of_users (by omega)
    have hfind := findOpen_unloaded hb.cache hb.nodup hx hp
    have hrest : ∀ {q}, q ∈ s.curPart.openInodes.erase p → q ∈ s.curPart.openInodes ∧ q ≠ p := fun hq =>
      ⟨List.mem_of_mem_erase hq, fun he => hb.nodup.not_mem_erase (he ▸ hq)⟩
    have hother := fun {q} => Mem.unloaded_ne (s := s) (p := p) (q := q)
    refine ⟨_, _, he, ?_⟩
    exact {
      hheld with
      part := by
        obtain ⟨l, hl⟩ := hb.part
        refine ⟨s.curPart.openInodes.erase p, ?_⟩
        unfold Mem.unloaded
        rw [hl]
      pipes := hb.pipes
      disk := hb.disk
      cache :=
        { cached := fun q hq => by
            obtain ⟨hq, hne⟩ := hrest hq
            obtain ⟨h1, y, hy, h2⟩ := hb.cache.cached q hq
            exact ⟨h1, y, (hother hne).trans hy, h2⟩
          unique := fun q hq r hr y z hy hz hyz => by
            obtain ⟨hq, hqp⟩ := hrest hq
            obtain ⟨hr, hrp⟩ := hrest hr
            rw [hother hqp] at hy
            rw [hother hrp] at hz
            exact hb.cache.unique q hq r hr y z hy hz hyz }
      nodup := hb.nodup.erase p
      file := fun m => by
        rw [← hb.file m]
        by_cases hm : x.iNo = m
        · subst hm
          have hslot : findOpen (Mem.unloaded s p) x.iNo = none := by rw [hfind, if_pos rfl]
          rw [inodeOf_slot hslot, inodeOf_cached (findOpen_eq hb.cache hp hx rfl) hx,
            hb.loaded p hp x hx hnone]
          show Inode.file (diskInode d.disk s.curPart.sb.inodeTableLba x.iNo) = _
          rw [hb.disk, hb.sb]
        · have hm' := hfind m
          rw [if_neg hm] at hm'
          cases hfm : findOpen s m with
          | none => rw [inodeOf_slot hfm, inodeOf_slot (hm'.trans hfm)]; rfl
          | some q =>
            obtain ⟨-, y, hy, hym⟩ := findOpen_some hfm
            have hqp : q ≠ p := by
              rintro rfl
              rw [hx] at hy; cases hy
              exact hm hym
            rw [inodeOf_cached hfm hy, inodeOf_cached (hm'.trans hfm) ((hother hqp).trans hy)]
      loaded := fun q hq y hy hn => by
        obtain ⟨hq, hqp⟩ := hrest hq
        rw [hother hqp] at hy
        exact hb.loaded q hq y hy hn }
  · have he := exec_inodeClose_more (d := d) hx hlast
    have hdrop := wp_exec hpart he
    exact ⟨_, _, he, hb.setCnt hx ⟨by omega, by omega⟩ rfl ⟨rfl, Nat.le_refl _⟩ (hb.toHeld.drop hdrop)⟩

end

end Enix.Fs
