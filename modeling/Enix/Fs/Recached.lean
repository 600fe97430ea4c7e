import Enix.Fs.Browse
import Enix.Fs.Files

/-!
# Files and the inodes in memory

`Recached`: inodes have come into memory or have gone, users have been counted, marks
have been set; the disk is as it was, and every number stands for the same file.

* `FilesOk.recached`: the files stay as they are.
* `recached_open`, `recached_close`: `inode_open` and `inode_close`, which needs that what
  is in memory is on disk (`Synced`).
-/
set_option autoImplicit false

namespace Enix.Fs
open Enix.Core Enix.Kernel

/-- The inodes in memory say what their slots say. -/
def Synced (s : Mem) (disk : Bytes) : Prop := ∀ p ∈ s.curPart.openInodes, ∀ x, s.inodes p = some x →
  x.iNo < 4096 ∧ Inode.file x = Inode.file (diskInode disk s.curPart.sb.inodeTableLba x.iNo)

/-- The cache is in order. -/
structure Cached (s : Mem) (d : Dev) : Prop where
  ok : InodesOk s d
  cache : CacheOk s d
  nodup : s.curPart.openInodes.Nodup
  synced : Synced s d.disk

structure Recached (s : Mem) (d : Dev) (s' : Mem) (d' : Dev) : Prop where
  part : ∃ l, s'.curPart = { s.curPart with openInodes := l }
  disk : d'.disk = d.disk
  pipes : s'.pipes = s.pipes
  heap : HeapLe d d'
  cached : Cached s' d'
  file : ∀ n, Inode.file (inodeOf s' d'.disk n) = Inode.file (inodeOf s d.disk n)

section
variable {base ibase F : Nat → Prop} {s s₁ s' : Mem} {d d₁ d' : Dev} {n i : Nat} {p q : Ptr} {x y : Inode} {P : Partition}
  {l : List Ptr} {disk : Bytes} {cur : Pid}

/-! ## What is the same -/

theorem file_eq (h : Inode.file y = Inode.file x) : y.iNo = x.iNo ∧ y.iSize = x.iSize ∧ y.iSectors = x.iSectors := by
  unfold Inode.file at h
  rw [Prod.mk.injEq, Prod.mk.injEq] at h
  exact h

theorem blocks_of_file (h : Inode.file y = Inode.file x) : fileBlocks disk y = fileBlocks disk x :=
  fileBlocks_congr (file_eq h).2.2 fun _ _ _ => rfl

theorem content_of_file (h : Inode.file y = Inode.file x) : content disk y = content disk x := by
  unfold content
  rw [blocks_of_file h, (file_eq h).2.1]

theorem FileOk.of_file (hf : FileOk P disk x) (h : Inode.file y = Inode.file x) :
    FileOk { P with openInodes := l } disk y := by
  obtain ⟨-, hsize, hsect⟩ := file_eq h
  have hb := hf.blocks
  refine ⟨⟨?_, ?_, ?_, ?_⟩, fun h0 => ?_⟩
  · rw [blocks_of_file h, hsect, hsize]
    exact { hb.owned with }
  · rw [hsect, hsize]
    exact hb.le
  · rw [hsect, hsize]
    exact hb.table
  · rw [hsect]
    exact hb.last
  · rw [hsect] at h0
    rw [hsize]
    exact hf.empty h0

theorem Recached.sb (h : Recached s d s' d') : s'.curPart.sb = s.curPart.sb := by
  obtain ⟨l, hl⟩ := h.part
  rw [hl]

theorem Recached.refl (h : Cached s d) : Recached s d s d :=
  ⟨⟨_, rfl⟩, rfl, rfl, ⟨rfl, Nat.le_refl _⟩, h, fun _ => rfl⟩

theorem Recached.trans (h₁ : Recached s d s₁ d₁) (h₂ : Recached s₁ d₁ s' d') : Recached s d s' d' := by
  obtain ⟨l₁, hl₁⟩ := h₁.part
  obtain ⟨l₂, hl₂⟩ := h₂.part
  exact ⟨⟨l₂, by rw [hl₂, hl₁]⟩, h₂.disk.trans h₁.disk, h₂.pipes.trans h₁.pipes, h₁.heap.trans h₂.heap, h₂.cached,
    fun n => (h₂.file n).trans (h₁.file n)⟩

/-- Only what the cache does not consist of has changed since. -/
theorem Recached.same {s'' : Mem} {d'' : Dev} (h : Recached s d s' d') (hpart : s''.curPart = s'.curPart)
    (hi : s''.inodes = s'.inodes) (hpipes : s''.pipes = s'.pipes) (hdisk : d''.disk = d'.disk) (hheap : HeapLe d' d'') :
    Recached s d s'' d'' := by
  obtain ⟨l, hl⟩ := h.part
  have hc := h.cached
  have hfile : ∀ m, inodeOf s'' d''.disk m = inodeOf s' d'.disk m := by
    intro m
    have hfind : findOpen s'' m = findOpen s' m := findOpen_congr (by rw [hpart]) fun q _ => by rw [hi]
    cases hf : findOpen s' m with
    | none => rw [inodeOf_slot hf, inodeOf_slot (hfind.trans hf), hpart, hdisk]
    | some q =>
      obtain ⟨-, x, hx, -⟩ := findOpen_some hf
      rw [inodeOf_cached hf hx, inodeOf_cached (hfind.trans hf) (hi ▸ hx)]
  refine ⟨⟨l, hpart.trans hl⟩, hdisk.trans h.disk, hpipes.trans h.pipes, h.heap.trans hheap, ⟨fun q x hx => ?_, ?_, ?_, ?_⟩,
    fun m => by rw [hfile, h.file]⟩
  · rw [hi] at hx
    exact ⟨Nat.lt_of_lt_of_le (hc.ok q x hx).1 hheap.brk, (hc.ok q x hx).2⟩
  · exact hc.cache.mono hheap (by rw [hpart]) fun q _ x hx => ⟨x, hi ▸ hx, rfl, rfl⟩
  · rw [hpart]
    exact hc.nodup
  · unfold Synced
    rw [hpart, hi, hdisk]
    exact hc.synced

/-- The files are what they were. -/
theorem FilesOk.recached (h : FilesOk base ibase F s d) (hr : Recached s d s' d') : FilesOk base ibase F s' d' := by
  obtain ⟨l, hl⟩ := hr.part
  have howns : ∀ m b, FileOwns s' d'.disk m b ↔ FileOwns s d.disk m b := by
    intro m b
    obtain ⟨-, hsize, hsect⟩ := file_eq (hr.file m)
    unfold FileOwns blockCount
    rw [blocks_of_file (hr.file m), hsect, hsize, hr.disk]
  refine ⟨?_, fun k hk => ?_, hr.cached.cache, h.lt, fun m hm => ?_, fun m hm => ?_, fun m k b hm hk h1 h2 => ?_,
    fun b => ?_, fun b m hb hm ho => ?_, fun m => ?_, h.others⟩
  · rw [hl]
    exact { h.part with }
  · rw [hr.heap.ok]
    exact h.heap k (Nat.le_trans hr.heap.brk hk)
  · rw [(file_eq (hr.file m)).1]
    exact h.number m hm
  · rw [hl, hr.disk]
    exact (h.file m hm).of_file (hr.disk ▸ hr.file m)
  · exact h.apart m k b hm hk ((howns m b).1 h1) ((howns k b).1 h2)
  · rw [hr.sb, hl]
    simp only [howns]
    exact h.bits b
  · rw [hr.sb] at ho
    exact h.spare b m hb hm ((howns m _).1 ho)
  · rw [hl]
    exact h.inodes m

theorem Recached.content (h : Recached s d s' d') (n : Nat) :
    content d'.disk (inodeOf s' d'.disk n) = content d.disk (inodeOf s d.disk n) := by
  rw [content_of_file (h.file n), h.disk]

/-! ## One inode of the cache -/

/-- The inode at `p` says the same, and has users. -/
theorem Cached.setInode (h : Cached s d) (hx : s.inodes p = some x) (hf : Inode.file y = Inode.file x)
    (hc : 0 < y.iOpenCnts ∧ y.iOpenCnts < 4294967296) :
    Recached s d (Mem.setInode s p y) d := by
  have hno := (file_eq hf).1
  have hsame : ∀ {q z}, (Mem.setInode s p y).inodes q = some z → ∃ w, s.inodes q = some w ∧ Inode.file z = Inode.file w := by
    intro q z hz
    by_cases hq : q = p
    · subst hq
      rw [Mem.setInode_self] at hz
      cases hz
      exact ⟨x, hx, hf⟩
    · rw [Mem.setInode_ne s y hq] at hz
      exact ⟨z, hz, rfl⟩
  have hfind : ∀ m, findOpen (Mem.setInode s p y) m = findOpen s m := findOpen_setCnt hx hno
  refine ⟨⟨_, rfl⟩, rfl, rfl, ⟨rfl, Nat.le_refl _⟩, ⟨fun q z hz => ?_, ⟨fun q hq => ?_, fun q hq r hr z w hz hw hzw => ?_⟩,
    h.nodup, fun q hq z hz => ?_⟩, fun m => ?_⟩
  · by_cases hq : q = p
    · subst hq
      rw [Mem.setInode_self] at hz
      cases hz
      exact ⟨(h.ok q x hx).1, hc.1⟩
    · rw [Mem.setInode_ne s y hq] at hz
      exact h.ok q z hz
  · obtain ⟨hlt, w, hw, h1, h2⟩ := h.cache.cached q hq
    by_cases hqp : q = p
    · subst hqp
      exact ⟨hlt, y, Mem.setInode_self s q y, hc⟩
    · exact ⟨hlt, w, (Mem.setInode_ne s y hqp).trans hw, h1, h2⟩
  · obtain ⟨z', hz', hfz⟩ := hsame hz
    obtain ⟨w', hw', hfw⟩ := hsame hw
    refine h.cache.unique q hq r hr z' w' hz' hw' ?_
    rw [← (file_eq hfz).1, ← (file_eq hfw).1, hzw]
  · obtain ⟨w, hw, hfw⟩ := hsame hz
    rw [hfw, (file_eq hfw).1]
    exact h.synced q hq w hw
  · cases hm : findOpen s m with
    | none =>
      rw [inodeOf_slot hm, inodeOf_slot ((hfind m).trans hm)]
      rfl
    | some q =>
      obtain ⟨-, w, hw, -⟩ := findOpen_some hm
      obtain ⟨-, z, hz, -⟩ := findOpen_some ((hfind m).trans hm)
      obtain ⟨w', hw', hfw⟩ := hsame hz
      rw [hw] at hw'
      cases hw'
      rw [inodeOf_cached hm hw, inodeOf_cached ((hfind m).trans hm) hz, hfw]

/-- A mark is set, or not. -/
theorem Recached.mark (h : Recached s d s₁ d₁) (hp : p ∈ s₁.curPart.openInodes) (hx : s₁.inodes p = some x) (w : Bool)
    (hpart : s'.curPart = s₁.curPart) (hi : s'.inodes = upd s₁.inodes p (some { x with writeDeny := w }))
    (hpipes : s'.pipes = s₁.pipes) :
    Recached s d s' d₁ ∧ (∀ m, findOpen s' m = findOpen s₁ m) ∧ ∀ q, users s' q = users s₁ q := by
  obtain ⟨-, y, hy, hcnt⟩ := h.cached.cache.cached p hp
  obtain rfl : x = y := Option.some.inj (hx.symm.trans hy)
  have hm := h.trans (h.cached.setInode (y := { x with writeDeny := w }) hx rfl hcnt)
  refine ⟨hm.same hpart hi hpipes rfl ⟨rfl, Nat.le_refl _⟩, fun m => findOpen_congr (by rw [hpart]) fun q _ => ?_, fun q => ?_⟩
  · rw [hi]
    by_cases hq : q = p
    · subst hq
      rw [upd_self, hx]
      rfl
    · rw [upd_ne hq]
  · by_cases hq : q = p
    · subst hq
      rw [users_some hx, users_some (by rw [hi, upd_self])]
    · unfold users
      rw [hi, upd_ne hq]

/-! ## `inode_open` -/

theorem recached_open (h : Cached s d) (hp : PartOk s.curPart) (hh : HeapOk d) (hr : ∀ q, users s q + 1 < 4294967296)
    (hn : n < 4096) (hno : (inodeOf s d.disk n).iNo = n) (cur : Pid) : ∃ p s' d',
      exec device (inodeOpen cur n) s d = .ok (p, s', d') ∧ Recached s d s' d' ∧ s'.fileTable = s.fileTable ∧
      s'.tasks = s.tasks ∧ (∀ m q, findOpen s' m = some q ↔ findOpen s m = some q ∨ m = n ∧ q = p) ∧
      (∀ q, users s' q = users s q + if q = p then 1 else 0) ∧ (findOpen s n = some p ∨ users s p = 0) := by
  cases hf : findOpen s n with
  | some p =>
    obtain ⟨-, x, hx, hxn⟩ := findOpen_some hf
    have hroom := hr p
    rw [users_some hx] at hroom
    have hcnt : succCnt x.iOpenCnts = x.iOpenCnts + 1 := Nat.mod_eq_of_lt hroom
    have hfind := findOpen_setCnt (s := s) (y := { x with iOpenCnts := succCnt x.iOpenCnts }) hx rfl
    refine ⟨p, _, d, exec_inodeOpen_hit cur hf hx, h.setInode hx rfl ⟨?_, ?_⟩, rfl, rfl, fun m q => ?_,
      fun q => ?_, .inl rfl⟩
    · show 0 < succCnt x.iOpenCnts
      omega
    · show succCnt x.iOpenCnts < 4294967296
      omega
    · rw [hfind]
      refine ⟨.inl, fun hm => hm.elim id ?_⟩
      rintro ⟨rfl, rfl⟩
      exact hf
    · by_cases hq : q = p
      · subst hq
        rw [users_some (Mem.setInode_self s q _), users_some hx, if_pos rfl]
        exact hcnt
      · unfold users
        rw [Mem.setInode_ne s _ hq, if_neg hq]
        rfl
  | none =>
    have hb := Browse.refl h.ok h.cache h.nodup
    obtain ⟨p, s', d', he, hb', hfind⟩ := hb.exec_inodeOpen hh hp.tableOk (fun q => by simpa using hr q) hn hno cur
    have hmiss := exec_inodeOpen_miss cur hp.tableOk hn hh hf
    have hslot : diskInode d.disk s.curPart.sb.inodeTableLba n = inodeOf s d.disk n := (inodeOf_slot hf _).symm
    rw [hslot] at hmiss
    obtain ⟨rfl, rfl, rfl⟩ : p = d.heap.brk ∧ s' = Mem.loaded s d.heap.brk (inodeOf s d.disk n) ∧ d' = Dev.loaded d cur := by
      rw [hmiss] at he
      cases he
      exact ⟨rfl, rfl, rfl⟩
    have hnew : d.heap.brk ∉ s.curPart.openInodes := fun hmem => absurd (h.cache.cached _ hmem).1 (Nat.lt_irrefl _)
    refine ⟨_, _, _, he, ⟨hb'.part, hb'.disk, hb'.pipes, hb'.heap, ⟨hb'.ok, hb'.cache, hb'.nodup, fun q hq y hy => ?_⟩, hb'.file⟩,
      hb'.files, hb'.tasks, fun m q => ?_, fun q => ?_, .inr (users_none (h.ok.fresh (Nat.le_refl _)))⟩
    · rcases List.mem_cons.1 hq with rfl | hq
      · refine ⟨?_, hb'.loaded _ List.mem_cons_self y hy (h.ok.fresh (Nat.le_refl _))⟩
        have hself : (Mem.loaded s d.heap.brk (inodeOf s d.disk n)).inodes d.heap.brk = _ := upd_self _ _ _
        rw [hself] at hy
        cases hy
        show (inodeOf s d.disk n).iNo < 4096
        rwa [hno]
      · have hne : q ≠ d.heap.brk := fun hc => hnew (hc ▸ hq)
        rw [Mem.loaded_ne _ hne] at hy
        exact h.synced q hq y hy
    · rw [findOpen_loaded hnew, hno]
      by_cases hm : n = m
      · subst hm
        rw [if_pos rfl, hf]
        simp [eq_comm]
      · rw [if_neg hm]
        exact ⟨.inl, fun hq => hq.resolve_right fun hc => hm hc.1.symm⟩
    · rw [hb'.users q]
      unfold plus
      rw [Nat.zero_add]

/-! ## `inode_close` -/

theorem recached_close (h : Cached s d) (hx : s.inodes p = some x) (hp : p ∈ s.curPart.openInodes) : ∃ s' d',
    exec device (inodeClose p) s d = .ok ((), s', d') ∧ Recached s d s' d' ∧ s'.fileTable = s.fileTable ∧
    s'.tasks = s.tasks ∧ (∀ q, users s' q + (if q = p then 1 else 0) = users s q) ∧
    ∀ m q, findOpen s' m = some q ↔ findOpen s m = some q ∧ users s' q ≠ 0 := by
  obtain ⟨-, y, hy, hpos, hlt⟩ := h.cache.cached p hp
  obtain rfl : x = y := Option.some.inj (hx.symm.trans hy)
  have hpred : predCnt x.iOpenCnts = x.iOpenCnts - 1 := by
    unfold predCnt
    rw [if_neg (by omega)]
  have hdrop := @ends_inodeClose s d p h.ok
  by_cases hlast : predCnt x.iOpenCnts = 0
  · have he := exec_inodeClose_last (d := d) hx hlast
    have hd := wp_exec hdrop he
    have hfind := findOpen_unloaded h.cache h.nodup hx hp
    have hother := fun {q} => Mem.unloaded_ne (s := s) (p := p) (q := q)
    have hrest : ∀ {q}, q ∈ s.curPart.openInodes.erase p → q ∈ s.curPart.openInodes ∧ q ≠ p := fun hq =>
      ⟨List.mem_of_mem_erase hq, fun hc => h.nodup.not_mem_erase (hc ▸ hq)⟩
    refine ⟨_, _, he, ⟨⟨_, rfl⟩, rfl, rfl, hd.heap, ⟨hd.ok h.ok, ⟨fun q hq => ?_, fun q hq r hr z w hz hw hzw => ?_⟩,
      h.nodup.erase p, fun q hq z hz => ?_⟩, fun m => ?_⟩, rfl, rfl, fun q => ?_, fun m q => ?_⟩
    · obtain ⟨hq, hqp⟩ := hrest hq
      obtain ⟨h1, z, hz, h2⟩ := h.cache.cached q hq
      exact ⟨h1, z, (hother hqp).trans hz, h2⟩
    · obtain ⟨hq, hqp⟩ := hrest hq
      obtain ⟨hr, hrp⟩ := hrest hr
      rw [hother hqp] at hz
      rw [hother hrp] at hw
      exact h.cache.unique q hq r hr z w hz hw hzw
    · obtain ⟨hq, hqp⟩ := hrest hq
      rw [hother hqp] at hz
      exact h.synced q hq z hz
    · -- the slot says what the inode said
      by_cases hm : x.iNo = m
      · subst hm
        rw [inodeOf_slot (by rw [hfind, if_pos rfl]), inodeOf_cached (findOpen_eq h.cache hp hx rfl) hx, (h.synced p hp x hx).2]
        rfl
      · have hm' := hfind m
        rw [if_neg hm] at hm'
        cases hfm : findOpen s m with
        | none =>
          rw [inodeOf_slot hfm, inodeOf_slot (hm'.trans hfm)]
          rfl
        | some q =>
          obtain ⟨-, z, hz, hzm⟩ := findOpen_some hfm
          have hqp : q ≠ p := by
            rintro rfl
            rw [hx] at hz
            cases hz
            exact hm hzm
          rw [inodeOf_cached hfm hz, inodeOf_cached (hm'.trans hfm) ((hother hqp).trans hz)]
    · by_cases hq : q = p
      · subst hq
        rw [if_pos rfl]
        exact hd.users_self.symm
      · rw [if_neg hq]
        exact hd.users_ne hq
    · rw [hfind]
      by_cases hm : x.iNo = m
      · subst hm
        rw [if_pos rfl, findOpen_eq h.cache hp hx rfl]
        refine ⟨fun hc => (by cases hc), ?_⟩
        rintro ⟨hq, hne⟩
        cases hq
        exact absurd (users_none (upd_self _ _ _)) hne
      · rw [if_neg hm]
        refine ⟨fun hq => ⟨hq, ?_⟩, fun hq => hq.1⟩
        obtain ⟨hmem, z, hz, hzm⟩ := findOpen_some hq
        have hqp : q ≠ p := by
          rintro rfl
          rw [hx] at hz
          cases hz
          exact hm hzm
        rw [hd.users_ne hqp, users_some hz]
        have := (h.ok q z hz).2
        omega
  · have he := exec_inodeClose_more (d := d) hx hlast
    have hd := wp_exec hdrop he
    have hfind := findOpen_setCnt (s := s) (y := { x with iOpenCnts := predCnt x.iOpenCnts }) hx rfl
    refine ⟨_, _, he, h.setInode hx rfl ⟨?_, ?_⟩, rfl, rfl, fun q => ?_, fun m q => ?_⟩
    · show 0 < predCnt x.iOpenCnts
      omega
    · show predCnt x.iOpenCnts < 4294967296
      omega
    · by_cases hq : q = p
      · subst hq
        rw [if_pos rfl]
        exact hd.users_self.symm
      · rw [if_neg hq]
        exact hd.users_ne hq
    · rw [hfind]
      refine ⟨fun hq => ⟨hq, fun h0 => ?_⟩, fun hq => hq.1⟩
      obtain ⟨-, z, hz, -⟩ := findOpen_some ((hfind m).trans hq)
      have hok := (hd.ok h.ok q z hz).2
      rw [users_some hz] at h0
      omega

end

end Enix.Fs
