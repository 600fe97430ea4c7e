import Enix.Fs.Quiet

/-!
# Users of inodes

Each in-memory inode counts its users. `Held h` compares the memory with an
earlier one: the code that ran in between holds `h p` references to the inode
at `p` that it did not hold before, and has changed nothing else that the
descriptors rely on. `inode_open` takes a reference and `inode_close` gives
one back, so a count is off by exactly the references that are held.

* `ends_searchFile`: `search_file` ends with one reference, to the parent
  directory it reports (none when that is the root).
-/
set_option autoImplicit false

namespace Enix.Fs
open Enix.Core Enix.Kernel

/-- `i_open_cnts` of the inode at `p`, 0 when there is none. -/
def users (s : Mem) (p : Ptr) : Nat :=
  match s.inodes p with
  | some x => x.iOpenCnts
  | none => 0

theorem users_some {s : Mem} {p : Ptr} {x : Inode} (h : s.inodes p = some x) : users s p = x.iOpenCnts := by
  unfold users; rw [h]

theorem users_none {s : Mem} {p : Ptr} (h : s.inodes p = none) : users s p = 0 := by
  unfold users; rw [h]

/-- Inodes in memory are older than the next allocation and have users. -/
def InodesOk (s : Mem) (d : Dev) : Prop :=
  ∀ p x, s.inodes p = some x → p < d.heap.brk ∧ 0 < x.iOpenCnts

theorem InodesOk.fresh {s : Mem} {d : Dev} (h : InodesOk s d) {p : Ptr} (hp : d.heap.brk ≤ p) :
    s.inodes p = none := by
  cases hx : s.inodes p with
  | none => rfl
  | some x => exact absurd (h p x hx).1 (Nat.not_lt.2 hp)

theorem InodesOk.of_users {s : Mem} {d : Dev} (h : InodesOk s d) {p : Ptr} (hp : users s p = 0) :
    s.inodes p = none := by
  cases hx : s.inodes p with
  | none => rfl
  | some x =>
    have := (h p x hx).2
    rw [users_some hx] at hp
    omega

theorem InodesOk.quiet {s s' : Mem} {d d' : Dev} (h : InodesOk s d) (hq : Quiet s s') (hd : HeapLe d d') :
    InodesOk s' d' := by
  intro p y hy
  cases hx : s.inodes p with
  | none => rw [hq.none hx] at hy; cases hy
  | some x =>
    obtain ⟨y', hy', -, hc, -⟩ := hq.some hx
    rw [hy] at hy'; cases hy'
    have := h p x hx
    exact ⟨Nat.lt_of_lt_of_le this.1 hd.brk, by omega⟩

theorem Quiet.users {s s' : Mem} (h : Quiet s s') (p : Ptr) : users s' p = users s p := by
  cases hx : s.inodes p with
  | none => rw [users_none hx, users_none (h.none hx)]
  | some x =>
    obtain ⟨y, hy, -, hc, -⟩ := h.some hx
    rw [users_some hx, users_some hy, hc]

/-- The members of `open_inodes` are in memory, each is there once. -/
structure Listed (s : Mem) : Prop where
  nodup : s.curPart.openInodes.Nodup
  loaded : ∀ p ∈ s.curPart.openInodes, s.inodes p ≠ none

theorem Listed.quiet {s s' : Mem} (h : Listed s) (hq : Quiet s s') : Listed s' where
  nodup := hq.openInodes ▸ h.nodup
  loaded p hp := by
    rw [hq.openInodes] at hp
    obtain ⟨x, hx⟩ := Option.ne_none_iff_exists'.1 (h.loaded p hp)
    obtain ⟨y, hy, -⟩ := hq.some hx
    rw [hy]
    exact Option.some_ne_none y

/-- The inode at `p` is replaced, or is new in memory and on the list. -/
theorem Listed.store {s s' : Mem} {p : Ptr} {x : Inode} (h : Listed s) (hi : s'.inodes = upd s.inodes p (some x))
    (ho : s'.curPart.openInodes = s.curPart.openInodes ∨
      s'.curPart.openInodes = p :: s.curPart.openInodes ∧ s.inodes p = none) : Listed s' := by
  have hkeep : ∀ q, s.inodes q ≠ none → s'.inodes q ≠ none := by
    intro q hq
    rw [hi]
    by_cases hqp : q = p
    · rw [hqp, upd_self]
      exact Option.some_ne_none x
    · rw [upd_ne hqp]
      exact hq
  rcases ho with ho | ⟨ho, hnone⟩
  · refine ⟨ho ▸ h.nodup, fun q hq => ?_⟩
    rw [ho] at hq
    exact hkeep q (h.loaded q hq)
  · refine ⟨ho ▸ List.nodup_cons.2 ⟨fun hp => h.loaded p hp hnone, h.nodup⟩, fun q hq => ?_⟩
    rw [ho] at hq
    rcases List.mem_cons.1 hq with rfl | hq
    · rw [hi, upd_self]
      exact Option.some_ne_none x
    · exact hkeep q (h.loaded q hq)

/-- One more reference to `p`. -/
def plus (h : Ptr → Nat) (p : Ptr) : Ptr → Nat := fun q => h q + if q = p then 1 else 0

theorem plus_self (h : Ptr → Nat) (p : Ptr) : plus h p p = h p + 1 := by simp [plus]

theorem plus_ne (h : Ptr → Nat) {p q : Ptr} (hq : q ≠ p) : plus h p q = h q := by simp [plus, hq]

structure Held (h : Ptr → Nat) (s₀ : Mem) (d₀ : Dev) (s : Mem) (d : Dev) : Prop where
  start : InodesOk s₀ d₀
  ok : InodesOk s d
  heap : HeapLe d₀ d
  files : s.fileTable = s₀.fileTable
  tasks : s.tasks = s₀.tasks
  users : ∀ p, users s p = users s₀ p + h p
  keep : ∀ p x, s₀.inodes p = some x →
    ∃ y, s.inodes p = some y ∧ y.iNo = x.iNo ∧ y.writeDeny = x.writeDeny
  root : s.rootDir = s₀.rootDir
  listed : Listed s₀ → Listed s

section
variable {h : Ptr → Nat} {s₀ s s' : Mem} {d₀ d d' : Dev} {p : Ptr}

theorem Held.refl (h : InodesOk s d) : Held (fun _ => 0) s d s d :=
  ⟨h, h, ⟨rfl, Nat.le_refl _⟩, rfl, rfl, fun _ => rfl, fun _ x hx => ⟨x, hx, rfl, rfl⟩, rfl, id⟩

theorem Held.quiet (hh : Held h s₀ d₀ s d) (hq : Quiet s s') (hd : HeapLe d d') : Held h s₀ d₀ s' d' where
  start := hh.start
  ok := hh.ok.quiet hq hd
  heap := hh.heap.trans hd
  files := hq.files.trans hh.files
  tasks := hq.tasks.trans hh.tasks
  users p := by rw [hq.users]; exact hh.users p
  keep p x hx := by
    obtain ⟨y, hy, h1, h2⟩ := hh.keep p x hx
    obtain ⟨z, hz, h3, -, h4⟩ := hq.some hy
    exact ⟨z, hz, h3.trans h1, h4.trans h2⟩
  root := hq.root.trans hh.root
  listed hl := (hh.listed hl).quiet hq

theorem ends_quiet {α : Type} {m : K α} (hm : Guar Quiet m) {P : α → Mem → Dev → Prop}
    (hP : ∀ a s' d', Quiet s s' → HeapLe d d' → P a s' d') : ends m P s d :=
  ends_guar Quiet.trans hm hP

/-- Another member of the cached list, or another user. -/
theorem Held.add (hh : Held h s₀ d₀ s d) (hd : HeapLe d d') {x : Inode} (hp : p < d'.heap.brk)
    (hi : s'.inodes = upd s.inodes p (some x)) (hc : x.iOpenCnts = Fs.users s p + 1)
    (hx : ∀ y, s.inodes p = some y → x.iNo = y.iNo ∧ x.writeDeny = y.writeDeny)
    (hf : s'.fileTable = s.fileTable) (ht : s'.tasks = s.tasks) (hroot : s'.rootDir = s.rootDir)
    (ho : s'.curPart.openInodes = s.curPart.openInodes ∨
      s'.curPart.openInodes = p :: s.curPart.openInodes ∧ s.inodes p = none) : Held (plus h p) s₀ d₀ s' d' where
  start := hh.start
  ok := by
    intro q y hy
    rw [hi] at hy
    by_cases hq : q = p
    · subst hq
      rw [upd_self] at hy; cases hy
      exact ⟨hp, by omega⟩
    · rw [upd_ne hq] at hy
      have := hh.ok q y hy
      exact ⟨Nat.lt_of_lt_of_le this.1 hd.brk, this.2⟩
  heap := hh.heap.trans hd
  files := hf.trans hh.files
  tasks := ht.trans hh.tasks
  users q := by
    by_cases hq : q = p
    · subst hq
      rw [users_some (by rw [hi, upd_self]), plus_self, hc, hh.users]
      omega
    · have : Fs.users s' q = Fs.users s q := by unfold Fs.users; rw [hi, upd_ne hq]
      rw [this, plus_ne h hq]; exact hh.users q
  keep q y hy := by
    obtain ⟨z, hz, h1, h2⟩ := hh.keep q y hy
    rw [hi]
    by_cases hq : q = p
    · subst hq
      have := hx z hz
      exact ⟨x, upd_self _ _ _, this.1.trans h1, this.2.trans h2⟩
    · exact ⟨z, by rw [upd_ne hq]; exact hz, h1, h2⟩
  root := hroot.trans hh.root
  listed hl := (hh.listed hl).store hi ho

/-- The inode at `p` has lost a user, and is gone if that was the last one. -/
structure Dropped (p : Ptr) (s : Mem) (d : Dev) (s' : Mem) (d' : Dev) : Prop where
  heap : HeapLe d d'
  files : s'.fileTable = s.fileTable
  tasks : s'.tasks = s.tasks
  others : ∀ q, q ≠ p → s'.inodes q = s.inodes q
  inode : ∃ x, s.inodes p = some x ∧ ((x.iOpenCnts = 1 ∧ s'.inodes p = none) ∨
    ∃ y, s'.inodes p = some y ∧ 0 < y.iOpenCnts ∧ y.iOpenCnts + 1 = x.iOpenCnts ∧
      y.iNo = x.iNo ∧ y.writeDeny = x.writeDeny)
  root : s'.rootDir = s.rootDir
  list : s'.curPart.openInodes = s.curPart.openInodes ∧ s'.inodes p ≠ none ∨
    s'.curPart.openInodes = s.curPart.openInodes.erase p

theorem Dropped.listed (h : Dropped p s d s' d') (hl : Listed s) : Listed s' := by
  rcases h.list with ⟨ho, hp⟩ | ho
  · refine ⟨ho ▸ hl.nodup, fun q hq => ?_⟩
    rw [ho] at hq
    by_cases hqp : q = p
    · rw [hqp]
      exact hp
    · rw [h.others q hqp]
      exact hl.loaded q hq
  · refine ⟨ho ▸ hl.nodup.erase p, fun q hq => ?_⟩
    rw [ho, hl.nodup.mem_erase_iff] at hq
    rw [h.others q hq.1]
    exact hl.loaded q hq.2

theorem Dropped.users_self (h : Dropped p s d s' d') : Fs.users s p = Fs.users s' p + 1 := by
  obtain ⟨x, hx, ⟨h1, h2⟩ | ⟨y, hy, -, h2, -⟩⟩ := h.inode
  · rw [users_some hx, users_none h2, h1]
  · rw [users_some hx, users_some hy, h2]

theorem Dropped.users_ne (h : Dropped p s d s' d') {q : Ptr} (hq : q ≠ p) :
    Fs.users s' q = Fs.users s q := by
  unfold Fs.users; rw [h.others q hq]

theorem Dropped.ok (h : Dropped p s d s' d') (hs : InodesOk s d) : InodesOk s' d' := by
  intro q y hy
  by_cases hq : q = p
  · subst hq
    obtain ⟨x, hx, ⟨-, h2⟩ | ⟨z, hz, hpos, -⟩⟩ := h.inode
    · rw [h2] at hy; cases hy
    · rw [hz] at hy; cases hy
      exact ⟨Nat.lt_of_lt_of_le (hs q x hx).1 h.heap.brk, hpos⟩
  · rw [h.others q hq] at hy
    have := hs q y hy
    exact ⟨Nat.lt_of_lt_of_le this.1 h.heap.brk, this.2⟩

/-- An inode with another user stays. -/
theorem Dropped.keep (h : Dropped p s d s' d') {q : Ptr} {x : Inode} (hx : s.inodes q = some x)
    (hu : q = p → 1 < Fs.users s p) :
    ∃ y, s'.inodes q = some y ∧ y.iNo = x.iNo ∧ y.writeDeny = x.writeDeny := by
  by_cases hq : q = p
  · subst hq
    have hu := hu rfl
    obtain ⟨z, hz, ⟨h1, -⟩ | ⟨y, hy, -, -, h3, h4⟩⟩ := h.inode
    · rw [users_some hz] at hu; omega
    · rw [hx] at hz; cases hz
      exact ⟨y, hy, h3, h4⟩
  · exact ⟨x, by rw [h.others q hq]; exact hx, rfl, rfl⟩

/-- A reference is given back. -/
theorem Held.drop (hh : Held (plus h p) s₀ d₀ s d) (hd : Dropped p s d s' d') : Held h s₀ d₀ s' d' where
  start := hh.start
  ok := hd.ok hh.ok
  heap := hh.heap.trans hd.heap
  files := hd.files.trans hh.files
  tasks := hd.tasks.trans hh.tasks
  users q := by
    have hu := hh.users q
    by_cases hq : q = p
    · subst hq
      have := hd.users_self
      rw [plus_self] at hu
      omega
    · rw [hd.users_ne hq, hu, plus_ne h hq]
  keep q y hy := by
    obtain ⟨z, hz, h1, h2⟩ := hh.keep q y hy
    have hpos := (hh.start q y hy).2
    obtain ⟨w, hw, h3, h4⟩ := hd.keep hz fun hq => by
      subst hq
      have hu := hh.users q
      rw [plus_self, users_some hy] at hu
      omega
    exact ⟨w, hw, h3.trans h1, h4.trans h2⟩
  root := hd.root.trans hh.root
  listed hl := hd.listed (hh.listed hl)

/-! ## Opening and closing -/

theorem ends_sysMalloc (o : Option Pid) : ends (sysMalloc o) (fun r s' d' =>
    s' = s ∧ HeapLe d d' ∧ ∀ p, r = some p → p = d.heap.brk ∧ p < d'.heap.brk) s d := by
  cases hok : d.heap.ok d.heap.brk with
  | true =>
    refine (wp_ok (exec_sysMalloc o hok)).2 ⟨rfl, ⟨rfl, Nat.le_succ _⟩, fun p hp => ?_⟩
    cases hp
    exact ⟨rfl, Nat.lt_succ_self _⟩
  | false =>
    have he : exec device (sysMalloc o) s d =
        .ok (none, s, { d with heap := { d.heap with brk := d.heap.brk + 1 } }) := by
      unfold sysMalloc
      simp only [exec_perform_bind, device, hok]
      rfl
    exact (wp_ok he).2 ⟨rfl, ⟨rfl, Nat.le_succ _⟩, fun p hp => by cases hp⟩

theorem ends_sysMallocNN (o : Option Pid) : ends (sysMallocNN o) (fun p s' d' =>
    s' = s ∧ p = d.heap.brk ∧ p < d'.heap.brk ∧ HeapLe d d') s d := by
  unfold sysMallocNN
  refine wp_bind.2 (wp_mono (ends_sysMalloc o) ?_)
  rintro r s' d' ⟨rfl, hd, hp⟩
  cases r with
  | none => exact wp_stop.2 trivial
  | some p =>
    obtain ⟨h1, h2⟩ := hp p rfl
    exact wp_pure.2 ⟨rfl, h1, h2, hd⟩

/-- No count is about to wrap around. -/
def Room (k : Nat) (s : Mem) : Prop := ∀ p, users s p + k < 4294967296

theorem Room.of_range {s : Mem} {d : Dev} (h : InodesOk s d) {k : Nat} (hk : k < 4294967296)
    (hr : ∀ q ∈ List.range d.heap.brk, Fs.users s q + k < 4294967296) : Room k s := by
  intro q
  by_cases hq : q < d.heap.brk
  · exact hr q (List.mem_range.2 hq)
  · rw [users_none (h.fresh (Nat.not_lt.1 hq))]
    omega

/-- `inode_open` takes a reference, to the cached inode or to a new one. -/
theorem ends_inodeOpen (hh : Held h s₀ d₀ s d) (hr : ∀ p, Fs.users s₀ p + h p + 1 < 4294967296)
    (cur : Pid) (n : Nat) : ends (inodeOpen cur n) (fun p s' d' => Held (plus h p) s₀ d₀ s' d' ∧
      (findOpen s n = some p ∨ s.inodes p = none) ∧ ∃ x, s'.inodes p = some x) s d := by
  cases hf : findOpen s n with
  | some p =>
    have hany := List.find?_some hf
    rw [Option.any_eq_true] at hany
    obtain ⟨x, hx, -⟩ := hany
    rw [ends, wp_ok (exec_inodeOpen_hit _ hf hx)]
    have hroom := hr p
    have hu := hh.users p
    rw [users_some hx] at hu
    refine ⟨hh.add ⟨rfl, Nat.le_refl _⟩ (hh.ok p x hx).1 rfl ?_ ?_ rfl rfl rfl (Or.inl rfl), Or.inl rfl, _, upd_self _ _ _⟩
    · show succCnt x.iOpenCnts = Fs.users s p + 1
      rw [users_some hx]
      unfold succCnt
      omega
    · intro y hy
      rw [hx] at hy; cases hy
      exact ⟨rfl, rfl⟩
  | none =>
    unfold inodeOpen
    refine wp_bind.2 (wp_readM.2 ?_)
    rw [hf]
    refine wp_bind.2 (ends_quiet (quiet_inodeLocate n) fun pos s₁ d₁ hq₁ hd₁ => ?_)
    refine wp_bind.2 (wp_mono (ends_sysMallocNN none) ?_)
    rintro p s₂ d₂ ⟨rfl, rfl, hlt₂, hd₂⟩
    refine wp_bind.2 (ends_quiet (quiet_sysMallocNN _) fun b s₃ d₃ hq₃ hd₃ => ?_)
    refine wp_bind.2 (ends_quiet (quiet_ideRead _ _ _) fun buf s₄ d₄ hq₄ hd₄ => ?_)
    refine wp_bind.2 (wp_modifyM.2 (wp_bind.2 (wp_mono (ends_quiet (quiet_sysFree _ _)
      fun _ s₅ d₅ hq₅ hd₅ => (⟨hq₅, hd₅⟩ : Quiet _ s₅ ∧ HeapLe d₄ d₅)) ?_)))
    rintro - s₅ d₅ ⟨hq₅, hd₅⟩
    -- the new inode is younger than all that were there
    have h₁ := hh.quiet hq₁ hd₁
    have hfresh := h₁.ok.fresh (Nat.le_refl d₁.heap.brk)
    have h₄ := (h₁.quiet hq₃ (hd₂.trans hd₃)).quiet hq₄ hd₄
    have hfresh₄ := hq₄.none (hq₃.none hfresh)
    have hfresh₀ : s.inodes d₁.heap.brk = none := by
      cases hx : s.inodes d₁.heap.brk with
      | none => rfl
      | some x =>
        obtain ⟨y, hy, -⟩ := hq₁.some hx
        rw [hfresh] at hy; cases hy
    have hadd : Held (plus h d₁.heap.brk) s₀ d₀ { s₄ with
        inodes := upd s₄.inodes d₁.heap.brk (some { Inode.ofBytes (shift buf pos.offSize) with iOpenCnts := 1 })
        curPart := { s₄.curPart with openInodes := d₁.heap.brk :: s₄.curPart.openInodes } } d₄ :=
      h₄.add ⟨rfl, Nat.le_refl _⟩
      (Nat.lt_of_lt_of_le hlt₂ (Nat.le_trans hd₃.brk hd₄.brk)) rfl
      (by rw [users_none hfresh₄]) (fun y hy => by rw [hfresh₄] at hy; cases hy) rfl rfl rfl (Or.inr ⟨rfl, hfresh₄⟩)
    have hq₅' := hadd.quiet hq₅ hd₅
    obtain ⟨y, hy, -⟩ := hq₅.some (upd_self s₄.inodes d₁.heap.brk _)
    exact wp_pure.2 ⟨hq₅', Or.inr hfresh₀, y, hy⟩

theorem ends_inodeClose (hs : InodesOk s d) : ends (inodeClose p) (fun _ => Dropped p s d) s d := by
  cases hx : s.inodes p with
  | none =>
    unfold inodeClose derefInode
    refine wp_bind.2 (wp_bind.2 (wp_readM.2 ?_))
    rw [hx]
    exact wp_stop.2 trivial
  | some x =>
    have hpos := (hs p x hx).2
    have hpred : predCnt x.iOpenCnts = x.iOpenCnts - 1 := by
      unfold predCnt; rw [if_neg (by omega)]
    by_cases hlast : predCnt x.iOpenCnts = 0
    · rw [ends, wp_ok (exec_inodeClose_last hx hlast)]
      exact ⟨⟨rfl, Nat.le_refl _⟩, rfl, rfl, fun q hq => upd_ne hq, ⟨x, hx,
        Or.inl ⟨by omega, upd_self _ _ _⟩⟩, rfl, Or.inr rfl⟩
    · have hstay : (Mem.setInode s p { x with iOpenCnts := predCnt x.iOpenCnts }).inodes p ≠ none := by
        rw [Mem.setInode_self]
        exact Option.some_ne_none _
      rw [ends, wp_ok (exec_inodeClose_more hx hlast)]
      exact ⟨⟨rfl, Nat.le_refl _⟩, rfl, rfl, fun q hq => upd_ne hq, ⟨x, hx,
        Or.inr ⟨_, upd_self _ _ _, by simp only; omega, by simp only; omega, rfl, rfl⟩⟩, rfl, Or.inl ⟨rfl, hstay⟩⟩

/-! ## Directories -/

/-- The reference behind an open directory; the root directory is never closed. -/
def handle (dir : Dir) : Ptr → Nat :=
  match dir.addr with
  | none => fun _ => 0
  | some _ => plus (fun _ => 0) dir.inode

theorem handle_le (dir : Dir) (p : Ptr) : handle dir p ≤ 1 := by
  obtain ⟨addr, q⟩ := dir
  cases addr with
  | none => exact Nat.zero_le _
  | some a =>
    show plus (fun _ => 0) q p ≤ 1
    unfold plus
    split <;> simp

theorem ends_dirOpen (hh : Held (fun _ => 0) s₀ d₀ s d) (hr : Room 1 s₀) (cur : Pid) (n : Nat) :
    ends (dirOpen cur n) (fun dir s' d' => Held (handle dir) s₀ d₀ s' d') s d := by
  unfold dirOpen
  refine wp_bind.2 (ends_quiet (quiet_sysMallocNN _) fun q s₁ d₁ hq₁ hd₁ => ?_)
  refine wp_bind.2 (wp_mono (ends_inodeOpen (hh.quiet hq₁ hd₁) hr cur n) ?_)
  intro p s₂ d₂ h₂
  exact wp_pure.2 h₂.1

/-- `dir_close` gives a reference back, unless the directory is the root. -/
theorem ends_closing {dir : Dir} (hs : InodesOk s d) (cur : Pid) {P : Mem → Dev → Prop}
    (hroot : dir.addr = none → P s d)
    (hdrop : ∀ s₁ d₁ s₂ d₂, dir.addr ≠ none → Dropped dir.inode s d s₁ d₁ → Quiet s₁ s₂ →
      HeapLe d₁ d₂ → P s₂ d₂) : ends (dirClose cur dir) (fun _ => P) s d := by
  obtain ⟨addr, q⟩ := dir
  unfold dirClose
  cases addr with
  | none => exact wp_pure.2 (hroot rfl)
  | some a =>
    refine wp_bind.2 (wp_mono (ends_inodeClose hs) fun _ s₁ d₁ h₁ => ?_)
    exact ends_quiet (quiet_sysFree _ _) fun _ s₂ d₂ hq hd => hdrop _ _ _ _ (by simp) h₁ hq hd

theorem handle_root {dir : Dir} (h : dir.addr = none) : handle dir = fun _ => 0 := by
  unfold handle; rw [h]

theorem handle_some {dir : Dir} (h : dir.addr ≠ none) : handle dir = plus (fun _ => 0) dir.inode := by
  unfold handle
  cases ha : dir.addr with
  | none => exact absurd ha h
  | some a => rfl

theorem ends_dirClose {dir : Dir} (hh : Held (handle dir) s₀ d₀ s d) (cur : Pid) :
    ends (dirClose cur dir) (fun _ s' d' => Held (fun _ => 0) s₀ d₀ s' d') s d := by
  refine ends_closing hh.ok cur (fun ha => ?_) fun s₁ d₁ s₂ d₂ ha h₁ hq hd => ?_
  · rwa [handle_root ha] at hh
  · rw [handle_some ha] at hh
    exact (hh.drop h₁).quiet hq hd

theorem ends_searchLoop (hr : Room 1 s₀) (cur : Pid) (fuel : Nat) :
    ∀ {s : Mem} {d : Dev} {name : Str} {sub : Option Str} {dir : Dir} {no : Nat} {e : Option DirEntry}
      {path : Str}, Held (handle dir) s₀ d₀ s d →
      ends (searchLoop cur fuel name sub dir no e path)
        (fun r s' d' => Held (handle r.2.parentDir) s₀ d₀ s' d') s d := by
  induction fuel with
  | zero => intro s d name sub dir no e path _; exact wp_stop.2 trivial
  | succ fuel ih =>
    intro s d name sub dir no e path hh
    cases name with
    | nil =>
      unfold searchLoop
      refine wp_bind.2 (wp_mono (ends_dirClose hh cur) fun _ s₁ d₁ h₁ => ?_)
      refine wp_bind.2 (wp_mono (ends_dirOpen h₁ hr cur no) fun dir' s₂ d₂ h₂ => ?_)
      cases e with
      | none => exact wp_stop.2 trivial
      | some e => exact wp_pure.2 h₂
    | cons c name =>
      unfold searchLoop
      refine wp_bind.2 (wp_assert_weak fun _ => ?_)
      refine wp_ite (fun _ => ?_) fun _ => wp_stop.2 trivial
      refine wp_bind.2 (ends_quiet (quiet_searchDirEntry cur dir _) fun r s₁ d₁ hq₁ hd₁ => ?_)
      have h₁ := hh.quiet hq₁ hd₁
      cases r with
      | none => exact wp_pure.2 h₁
      | some e' =>
        refine wp_bind.2 (ends_quiet (quiet_parseNext sub) fun r s₂ d₂ hq₂ hd₂ => ?_)
        have h₂ := h₁.quiet hq₂ hd₂
        dsimp only
        refine wp_ite (fun _ => ?_) fun _ => wp_ite (fun _ => wp_pure.2 h₂) fun _ => ih h₂
        refine wp_bind.2 (ends_quiet (quiet_derefInode _) fun x s₃ d₃ hq₃ hd₃ => ?_)
        refine wp_bind.2 (wp_mono (ends_dirClose (h₂.quiet hq₃ hd₃) cur) fun _ s₄ d₄ h₄ => ?_)
        refine wp_bind.2 (wp_mono (ends_dirOpen h₄ hr cur _) fun dir' s₅ d₅ h₅ => ?_)
        exact ih h₅

theorem ends_searchFile (hs : InodesOk s d) (hr : Room 1 s) (cur : Pid) (path : Str) :
    ends (searchFile cur path) (fun r s' d' => Held (handle r.2.parentDir) s d s' d') s d := by
  unfold searchFile rootDir
  refine wp_bind.2 (wp_readM.2 ?_)
  refine wp_ite (fun _ => wp_pure.2 (Held.refl hs)) fun _ => ?_
  refine wp_bind.2 (wp_assert_weak fun _ => ?_)
  refine wp_bind.2 (ends_quiet (quiet_parseName path) fun r s₁ d₁ hq hd => ?_)
  exact ends_searchLoop hr cur _ ((Held.refl hs).quiet hq hd)

end

end Enix.Fs
