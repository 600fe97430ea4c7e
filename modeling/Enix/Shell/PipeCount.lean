import Enix.Shell.PipeBooks
import Enix.Userprog.Inherit

/-!
# Pipes across fork, redirection and exit

`sys_fd_redirect` does not count, nobody counts the descriptors 0, 1 and 2, and
`sys_Iseek` stores a position in the field of the count. `PipeState` keeps beside
the memory the page behind each descriptor.

* `pipeCallRun_keeps`: as long as every call counts what it does, a page is kept while
  a descriptor of the pipe is open and is free when none is.
* `pipeCallRun_dangles`: a process that redirects its standard output and closes both
  ends of the pipe is left with a descriptor of a free page.
-/
set_option autoImplicit false

namespace Enix.Fs
open Enix.Core Enix.Kernel Function

/-! ## The calls -/

inductive PipeCall where
  | pipe (cur : Pid)
  | fork (cur child : Pid)
  | redirect (cur : Pid) (oldLocalFd newLocalFd : Nat)
  | seek (cur : Pid) (fd offset : Int) (whence : Nat)
  | close (cur : Pid) (fd : Int)
  | exit (cur : Pid)

/-- The pages behind the descriptors, all pages there ever were, the memory and the device. -/
structure PipeState where
  origin : Pid → Nat → Option Ptr
  pages : Set Ptr
  mem : Mem
  dev : Dev

namespace PipeCall

/-- `sys_pipe` returns two descriptors. -/
def prog : PipeCall → K (Option (Int × Int))
  | .pipe cur => do
    let (r, fd0, fd1) ← sysPipe cur
    pure (if r = 0 then some (fd0, fd1) else none)
  | .fork cur child => do
    let _ ← sysFork cur child
    pure none
  | .redirect cur oldLocalFd newLocalFd => do
    sysFdRedirect cur oldLocalFd newLocalFd
    pure none
  | .seek cur fd offset whence => do
    let _ ← sysIseek cur fd offset whence
    pure none
  | .close cur fd => do
    let _ ← sysClose cur fd
    pure none
  | .exit cur => do
    sysExit cur
    pure none

/-- The descriptors that a call gives up. -/
def gone : PipeCall → Pid → Nat → Prop
  | .close cur fd, pid, k => pid = cur ∧ 3 ≤ k ∧ fd = (k : Int)
  | .exit cur, pid, _ => pid = cur
  | _, _, _ => False

open Classical in
/-- The pages behind the descriptors after a call that returned `r`. -/
noncomputable def origin (o : Pid → Nat → Option Ptr) (r : Option (Int × Int)) (s' : Mem) (op : PipeCall) (pid : Pid)
    (fd : Nat) : Option Ptr :=
  match op with
  | .pipe cur =>
    if pid = cur ∧ ∃ fds, r = some fds ∧ (fds.1 = (fd : Int) ∨ fds.2 = (fd : Int)) then fdInodeOf s' cur fd else o pid fd
  | .fork cur child => if pid = child then o cur fd else o pid fd
  | .redirect cur oldLocalFd newLocalFd =>
    if pid = cur ∧ fd = oldLocalFd then if newLocalFd < 3 then none else o cur newLocalFd else o pid fd
  | .seek .. => o pid fd
  | .close cur k => if (PipeCall.close cur k).gone pid fd then none else o pid fd
  | .exit cur => if (PipeCall.exit cur).gone pid fd then none else o pid fd

/-- A child has a new number. -/
def Legal (s : Mem) : PipeCall → Prop
  | .fork _ child => s.tasks child = none ∧ child ≤ maxPid
  | _ => True

/-- The seek ends at byte 0 of a file of one byte. -/
def Rewinds (fdPos : Nat) (offset : Int) (whence : Nat) : Prop :=
  whence = 1 ∧ offset = 0 ∨ whence = 2 ∧ (4294967296 : Int) ∣ fdPos + offset ∨ whence = 3 ∧ (4294967296 : Int) ∣ 1 + offset

/-- Two descriptors are free for a new pipe. A redirected descriptor is 0, 1 or 2, or
no pipe is involved but one on both sides. A seek does not rewind a pipe. Where a redirected
descriptor of a pipe is left, a counted one is. -/
def Counting (s : Mem) : PipeCall → Prop
  | .pipe cur => ∃ t fd fd', s.tasks cur = some t ∧ 3 ≤ fd ∧ fd < fd' ∧ fd' < maxFilesOpenPerProc ∧ t.fdTable fd = -1 ∧
    t.fdTable fd' = -1
  | .fork .. => True
  | .redirect cur oldLocalFd newLocalFd => oldLocalFd < 3 ∨ ∀ i, (s.fileTable i).fdFlag = pipeFlag →
    (Directed s cur oldLocalFd i ↔ 3 ≤ newLocalFd ∧ Directed s cur newLocalFd i)
  | .seek cur fd offset whence => ∀ i, Directed s cur fd.toNat i → (s.fileTable i).fdFlag = pipeFlag →
    ¬ Rewinds (s.fileTable i).fdPos offset whence
  | op => ∀ pid fd i, fd < 3 → ¬ op.gone pid fd → Directed s pid fd i → (s.fileTable i).fdFlag = pipeFlag →
    ∃ pid' fd', ¬ op.gone pid' fd' ∧ Refers s pid' fd' i

end PipeCall

/-- A sequence of calls by any processes, each of which meets `C`. -/
inductive PipeCallRun (C : Mem → PipeCall → Prop) : List PipeCall → PipeState → PipeState → Prop where
  | nil (st : PipeState) : PipeCallRun C [] st st
  | cons {op : PipeCall} {ops : List PipeCall} {st st' : PipeState} {r : Option (Int × Int)} {s' : Mem} {d' : Dev} :
    op.Legal st.mem → C st.mem op → exec device op.prog st.mem st.dev = .ok (r, s', d') →
    PipeCallRun C ops ⟨op.origin st.origin r s', {p | p ∈ st.pages ∨ s'.pipes p ≠ none}, s', d'⟩ st' →
    PipeCallRun C (op :: ops) st st'

/-- A descriptor of a pipe belongs to a live process and refers to a slot with the pipe's
page, which is not free; a page that is not free has a descriptor. -/
structure PagesKept (st : PipeState) : Prop where
  held : ∀ pid fd p, st.origin pid fd = some p → ∃ i, Directed st.mem pid fd i ∧ i < maxFileOpen ∧
    (st.mem.fileTable i).fdInode = some p ∧ (none, p) ∈ st.dev.heap.live
  freed : ∀ p ∈ st.pages, (none, p) ∈ st.dev.heap.live → ∃ pid fd, st.origin pid fd = some p

/-- Nobody has a file or a pipe open. -/
structure NoPipes (st : PipeState) : Prop where
  origin : ∀ pid fd, st.origin pid fd = none
  pages : st.pages = ∅
  slots : ∀ i, i < maxFileOpen → (st.mem.fileTable i).fdInode = none
  std : ∀ i, i < 3 → (st.mem.fileTable i).fdFlag ≠ pipeFlag
  pipes : ∀ p, st.mem.pipes p = none
  fds : ∀ pid t fd, st.mem.tasks pid = some t → fd < maxFilesOpenPerProc → t.fdTable fd < 3
  pids : ∀ pid t, st.mem.tasks pid = some t → pid ≤ maxPid
  below : ∀ o p, (o, p) ∈ st.dev.heap.live → p < st.dev.heap.brk
  nodup : st.dev.heap.live.Nodup

/-! ## What the calls keep -/

/-- The counted descriptors are in the books, a redirected one is of a pipe in them, and
the pages behind the descriptors are those in their slots. -/
structure CountOk (o : Pid → Nat → Option Ptr) (pages : Set Ptr) (s : Mem) (d : Dev) : Prop
    extends Books (refsOf s.tasks) s d where
  pids : ∀ pid t, s.tasks pid = some t → pid ≤ maxPid
  valid : ∀ pid fd i, Directed s pid fd i → fd < maxFilesOpenPerProc → i < 3 ∨ Piped s i
  origin : ∀ pid fd p, o pid fd = some p ↔
    fd < maxFilesOpenPerProc ∧ ∃ i, Directed s pid fd i ∧ i < maxFileOpen ∧ (s.fileTable i).fdInode = some p
  brk : ∀ p ∈ pages, p < d.heap.brk
  taken : ∀ p ∈ pages, (none, p) ∈ d.heap.live → s.pipes p ≠ none

section
variable {o : Pid → Nat → Option Ptr} {pages : Set Ptr} {ref : Pid × Nat → Option Nat} {T T' : Pid → Option Task} {s s' : Mem} {d d' : Dev} {cur child pid : Pid}
  {fd i n : Nat} {p : Ptr} {k : Pid × Nat} {t : Task}

theorem Directed.unique {j : Nat} (h : Directed s pid fd i) (h' : Directed s pid fd j) : i = j := by
  obtain ⟨t, ht, hi⟩ := h
  obtain ⟨t', ht', hj⟩ := h'
  rw [ht] at ht'
  cases ht'
  rw [hi] at hj
  exact Int.ofNat.inj hj

theorem CountOk.refersValid (h : CountOk o pages s d) (hr : Refers s pid fd i) : i < 3 ∨ Piped s i :=
  h.valid pid fd i hr.directed.1 hr.directed.2.2

/-- A page that is not free has a descriptor. -/
theorem CountOk.kept {st : PipeState} (h : CountOk st.origin st.pages st.mem st.dev) : PagesKept st where
  held pid fd p ho := by
    obtain ⟨-, i, hd, hi, hp⟩ := (h.origin pid fd p).1 ho
    exact ⟨i, hd, hi, hp, h.live p (h.slots i p hi hp).2.2⟩
  freed p hp hlive := by
    obtain ⟨i, hi, hip⟩ := h.own p (h.taken p hp hlive)
    obtain ⟨k, hk⟩ := h.referenced (i := i) ⟨hi, by rw [hip]; exact Option.some_ne_none p⟩
    have hr : Refers st.mem k.1 k.2 i := refsOf_refers hk
    obtain ⟨hd, -, hlt⟩ := hr.directed
    exact ⟨k.1, k.2, (h.origin k.1 k.2 p).2 ⟨hlt, i, hd, hi, hip⟩⟩

/-- The pages there were and the pages there are. -/
theorem Books.allPages (h : Books ref s' d') (hbrk : ∀ p ∈ pages, p < d'.heap.brk)
    (htaken : ∀ p ∈ pages, (none, p) ∈ d'.heap.live → s'.pipes p ≠ none) {p : Ptr} (hp : p ∈ pages ∨ s'.pipes p ≠ none) :
    p < d'.heap.brk ∧ ((none, p) ∈ d'.heap.live → s'.pipes p ≠ none) := by
  cases hp with
  | inl hp => exact ⟨hbrk p hp, htaken p hp⟩
  | inr hp => exact ⟨h.below none p (h.live p hp), fun _ => hp⟩

/-- Descriptors are given up, and every redirected one that is left has a counted one beside it. -/
theorem CountOk.release (h : CountOk o pages s d) {gone : Pid → Nat → Prop} [∀ pid fd, Decidable (gone pid fd)]
    (hb : Books (refsOf s'.tasks) s' d') (hl : Loosened s d { s' with tasks := s.tasks } d')
    (hdir : ∀ pid fd i, Directed s' pid fd i ↔ ¬ gone pid fd ∧ Directed s pid fd i)
    (hpids : ∀ pid t, s'.tasks pid = some t → pid ≤ maxPid)
    (hleft : ∀ pid fd i, fd < 3 → ¬ gone pid fd → Directed s pid fd i → (s.fileTable i).fdFlag = pipeFlag →
      ∃ pid' fd', ¬ gone pid' fd' ∧ Refers s pid' fd' i) :
    CountOk (fun pid fd => if gone pid fd then none else o pid fd) {p | p ∈ pages ∨ s'.pipes p ≠ none} s' d' := by
  have hbrk : ∀ p ∈ pages, p < d'.heap.brk := fun p hp => by
    have hle : d'.heap.brk = d.heap.brk := hl.brk
    rw [hle]
    exact h.brk p hp
  have htaken : ∀ p ∈ pages, (none, p) ∈ d'.heap.live → s'.pipes p ≠ none := by
    intro p hp hlive
    obtain ⟨hold, hkeep⟩ := hl.pages p hlive
    exact hkeep (h.taken p hp hold)
  have hcounted : ∀ pid fd i, ¬ gone pid fd → Refers s pid fd i → 3 ≤ i → Piped s' i := by
    intro pid fd i hg hr h3
    obtain ⟨hd, h1, h2⟩ := hr.directed
    exact hb.used (pid, fd) i ((((hdir pid fd i).2 ⟨hg, hd⟩).refers h1 h2).refsOf h3)
  have hvalid : ∀ pid fd i, Directed s' pid fd i → fd < maxFilesOpenPerProc → i < 3 ∨ Piped s' i := by
    intro pid fd i hd hlt
    obtain ⟨hg, hold⟩ := (hdir pid fd i).1 hd
    cases h.valid pid fd i hold hlt with
    | inl hi => exact .inl hi
    | inr hi =>
      obtain ⟨p, -, h3, hflag, -⟩ := h.page hi
      refine .inr ?_
      by_cases hfd : fd < 3
      · obtain ⟨pid', fd', hg', hr⟩ := hleft pid fd i hfd hg hold hflag
        exact hcounted pid' fd' i hg' hr h3
      · exact hcounted pid fd i hg (hold.refers (by omega) hlt) h3
  refine ⟨hb, hpids, hvalid, fun pid fd p => ?_, fun p hp => (hb.allPages hbrk htaken hp).1,
    fun p hp => (hb.allPages hbrk htaken hp).2⟩
  by_cases hg : gone pid fd
  · rw [if_pos hg]
    refine ⟨fun he => (nomatch he), fun he => ?_⟩
    obtain ⟨-, i, hd, -⟩ := he
    exact absurd hg ((hdir pid fd i).1 hd).1
  · rw [if_neg hg, h.origin pid fd p]
    refine and_congr_right fun hlt => exists_congr fun i => ?_
    constructor
    · intro he
      obtain ⟨hd, hi, hp⟩ := he
      refine ⟨(hdir pid fd i).2 ⟨hg, hd⟩, hi, ?_⟩
      obtain ⟨h3, -⟩ := h.slots i p hi hp
      obtain ⟨q, hq, -⟩ := hb.page ((hvalid pid fd i ((hdir pid fd i).2 ⟨hg, hd⟩) hlt).resolve_left (by omega))
      have hold : (s.fileTable i).fdInode = some q := hl.slots i q hq
      rw [hp] at hold
      rw [hq, hold]
    · intro he
      obtain ⟨hd, hi, hp⟩ := he
      exact ⟨((hdir pid fd i).1 hd).2, hi, hl.slots i p hp⟩

/-! ### `sys_close` and `sys_exit` -/

theorem refsOf_upd (T : Pid → Option Task) (cur : Pid) (r : Option Task) (k : Pid × Nat) :
    refsOf (upd T cur r) k = if k.1 = cur then refsOf (fun _ => r) k else refsOf T k := by
  unfold refsOf upd
  split
  · rfl
  · rfl

/-- One descriptor of a task is set. -/
theorem refsOf_setFd (ht : T cur = some t) (v : Int) : refsOf (upd T cur (some { t with fdTable := upd t.fdTable fd v })) =
    update (refsOf T) (cur, fd) (refsOf (upd T cur (some { t with fdTable := upd t.fdTable fd v })) (cur, fd)) := by
  funext k
  obtain ⟨q, m⟩ := k
  by_cases hk : (q, m) = (cur, fd)
  · rw [hk, update_self]
  · rw [update_of_ne hk, refsOf_upd]
    dsimp only
    split
    · rename_i hq
      have hm : m ≠ fd := fun he => hk (by rw [hq, he])
      unfold refsOf
      dsimp only
      rw [hq, ht, Option.bind_some, Option.bind_some]
      dsimp only
      rw [upd_ne hm]
    · rfl

theorem directed_setFd {v : Int} (hT : s'.tasks = upd s.tasks cur (some { t with fdTable := upd t.fdTable n v })) (ht : s.tasks cur = some t) :
    Directed s' pid fd i ↔ if pid = cur ∧ fd = n then v = (i : Int) else Directed s pid fd i := by
  unfold Directed
  rw [hT]
  by_cases hp : pid = cur
  · rw [hp, upd_self, ht]
    simp only [Option.some.injEq, exists_eq_left', true_and]
    by_cases hfd : fd = n
    · rw [hfd, upd_self, if_pos rfl]
    · rw [upd_ne hfd, if_neg hfd]
  · rw [upd_ne hp, if_neg (fun he => hp he.1)]

theorem CountOk.ends_sysClose (h : CountOk o pages s d) {k : Int} (hc : (PipeCall.close cur k).Counting s) : ends (sysClose cur k)
    (fun _ s' d' => CountOk (fun pid fd => (PipeCall.close cur k).origin o none s' pid fd) {p | p ∈ pages ∨ s'.pipes p ≠ none} s' d')
    s d := by
  classical
  by_cases hk : 2 < k
  · obtain ⟨fd, rfl⟩ := Int.eq_ofNat_of_zero_le (show 0 ≤ k by omega)
    have h3 : 3 ≤ fd := by omega
    refine wp_mono (h.toBooks.ends_sysClose h3 (fun i hr => h.refersValid hr) fun i hr hi => hr.refsOf hi) ?_
    intro _ s' d' hr
    obtain ⟨hb, hl, ⟨t, ht, hT⟩, -⟩ := hr
    have hminus : refsOf s'.tasks (cur, fd) = none := by
      rw [hT]
      unfold refsOf
      rw [upd_self, Option.bind_some]
      dsimp only
      rw [upd_self]
      exact fdRef_none (by decide)
    have hrefs : update (refsOf s.tasks) (cur, fd) none = refsOf s'.tasks := by
      rw [← hminus, hT]
      exact (refsOf_setFd ht (-1)).symm
    rw [hrefs] at hb
    refine h.release hb hl (fun pid m i => ?_) (fun pid t' ht' => ?_) hc
    · rw [directed_setFd hT ht]
      have hgone : (PipeCall.close cur (fd : Int)).gone pid m ↔ pid = cur ∧ m = fd := by
        unfold PipeCall.gone
        constructor
        · intro hg
          exact ⟨hg.1, by omega⟩
        · intro hg
          exact ⟨hg.1, by omega, by omega⟩
      rw [hgone]
      split
      · rename_i he
        exact ⟨fun hi => by omega, fun hi => absurd he hi.1⟩
      · rename_i he
        exact ⟨fun hi => ⟨he, hi⟩, fun hi => hi.2⟩
    · by_cases hp : pid = cur
      · rw [hp]
        exact h.pids cur t ht
      · rw [hT, upd_ne hp] at ht'
        exact h.pids pid t' ht'
  · unfold sysClose
    rw [if_neg hk]
    refine wp_pure.2 (h.release h.toBooks (.refl s d) (fun pid fd i => ?_) h.pids hc)
    have hnot : ¬ (PipeCall.close cur k).gone pid fd := by
      intro hg
      have hge : 3 ≤ fd ∧ k = (fd : Int) := hg.2
      omega
    exact ⟨fun hd => ⟨hnot, hd⟩, fun hd => hd.2⟩

/-- The descriptors are the same. -/
def SameFds (T T' : Pid → Option Task) : Prop := ∀ q, (T' q).map Task.fdTable = (T q).map Task.fdTable

theorem SameFds.refsOf (h : SameFds T T') : refsOf T' = refsOf T := by
  funext k
  have hk := h k.1
  unfold Fs.refsOf
  cases ht : T k.1 with
  | none =>
    rw [ht] at hk
    rw [Option.map_eq_none_iff.1 hk]
  | some t =>
    rw [ht] at hk
    obtain ⟨t', ht', hfd⟩ := Option.map_eq_some_iff.1 hk
    rw [ht', Option.bind_some, Option.bind_some, hfd]

theorem directed_iff : Directed s pid fd i ↔ ∃ f, (s.tasks pid).map Task.fdTable = some f ∧ f fd = (i : Int) := by
  unfold Directed
  cases s.tasks pid with
  | none => simp
  | some t => simp

theorem SameFds.directed (h : SameFds s.tasks s'.tasks) : Directed s' pid fd i ↔ Directed s pid fd i := by
  rw [directed_iff, directed_iff, h pid]

theorem sameFds_adopt (T : Pid → Option Task) (pid : Pid) : SameFds T fun q =>
    (T q).map fun t => if t.parentPid = (pid : Int) then { t with parentPid := 1 } else t := by
  intro q
  rw [Option.map_map]
  cases T q with
  | none => rfl
  | some t =>
    simp only [Option.map_some, Function.comp_apply]
    split
    · rfl
    · rfl

/-- Books know of tasks only what is in `ref`. -/
theorem Books.retask (h : Books ref s d) (T : Pid → Option Task) : Books ref { s with tasks := T } d :=
  ⟨h.keys, h.used, h.slots, h.std, h.own, h.inj, h.count, h.pos, h.live, h.below, h.nodup⟩

theorem CountOk.ends_sysExit (h : CountOk o pages s d) (hc : (PipeCall.exit cur).Counting s) : ends (sysExit cur)
    (fun _ s' d' => CountOk (fun pid fd => (PipeCall.exit cur).origin o none s' pid fd) {p | p ∈ pages ∨ s'.pipes p ≠ none} s' d')
    s d := by
  classical
  unfold sysExit runningThread
  refine wp_bind.2 (wp_bind.2 (wp_readM.2 ?_))
  cases s.tasks cur with
  | none => exact wp_stop.2 trivial
  | some _ =>
    refine wp_pure.2 (wp_bind.2 (wp_assert_weak fun _ => ?_))
    unfold initAdopt
    refine wp_bind.2 (wp_modifyM.2 ?_)
    have hsame := sameFds_adopt s.tasks cur
    generalize (fun q => (s.tasks q).map fun t => if t.parentPid = (cur : Int) then { t with parentPid := 1 } else t) = T at hsame ⊢
    generalize hs : ({ s with tasks := T } : Mem) = s₁
    have hT : s₁.tasks = T := by rw [← hs]
    have hstart : unreleased s₁.tasks cur 3 = refsOf s.tasks := by
      funext k
      rw [hT, ← hsame.refsOf]
      unfold unreleased
      split
      · rename_i hk
        rw [refsOf_out T (.inl hk.2)]
      · rfl
    have hb : Books (unreleased s₁.tasks cur 3) s₁ d := by
      rw [hstart, ← hs]
      exact h.toBooks.retask T
    refine wp_bind.2 (wp_mono (ends_releaseFds_pipes (Nat.le_refl 3) (by decide) (.refl s₁ d) hb) ?_)
    intro _ s₂ d₂ hr
    obtain ⟨hl, hb₂⟩ := hr
    refine wp_modifyM.2 ?_
    have hend : unreleased s₁.tasks cur maxFilesOpenPerProc = refsOf (upd s₂.tasks cur none) := by
      funext k
      rw [refsOf_upd, hl.tasks]
      unfold unreleased
      by_cases hk : k.1 = cur
      · rw [if_pos hk]
        have hnone : refsOf (fun _ => (none : Option Task)) k = none := rfl
        rw [hnone]
        split
        · rfl
        · rename_i hout
          rw [refsOf_out s₁.tasks (.inr (Nat.le_of_not_lt fun hlt => hout ⟨hk, hlt⟩))]
      · rw [if_neg hk, if_neg fun he => hk he.1]
    rw [hend] at hb₂
    refine h.release (hb₂.retask _) ⟨rfl, fun i p hp => ?_, hl.brk, fun p hp => ?_⟩ (fun pid fd i => ?_) (fun pid t ht => ?_) hc
    · have hold := hl.slots i p hp
      rw [← hs] at hold
      exact hold
    · have hold := hl.pages p hp
      rw [← hs] at hold
      exact hold
    · by_cases hp : pid = cur
      · have hno : ¬ Directed { s₂ with tasks := upd s₂.tasks cur none } pid fd i := by
          intro hd
          obtain ⟨t, ht, -⟩ := hd
          have ht' : upd s₂.tasks cur none pid = some t := ht
          rw [hp, upd_self] at ht'
          cases ht'
        exact ⟨fun hd => absurd hd hno, fun hd => absurd hp hd.1⟩
      · have hsame₂ : Directed { s₂ with tasks := upd s₂.tasks cur none } pid fd i ↔ Directed s₁ pid fd i := by
          unfold Directed
          dsimp only
          rw [upd_ne hp, hl.tasks]
        have hsame₁ : Directed s₁ pid fd i ↔ Directed s pid fd i := SameFds.directed (hT ▸ hsame)
        rw [hsame₂, hsame₁]
        exact ⟨fun hd => ⟨hp, hd⟩, fun hd => hd.2⟩
    · have ht' : upd s₂.tasks cur none pid = some t := ht
      by_cases hp : pid = cur
      · rw [hp, upd_self] at ht'
        cases ht'
      · rw [upd_ne hp, hl.tasks, hT] at ht'
        have hmap := hsame pid
        rw [ht', Option.map_some] at hmap
        obtain ⟨t', ht', -⟩ := Option.map_eq_some_iff.1 hmap.symm
        exact h.pids pid t' ht'

/-! ### `sys_fork` -/

theorem CountOk.ends_sysFork (h : CountOk o pages s d) (hl : (PipeCall.fork cur child).Legal s) (r : Option (Int × Int)) :
    ends (sysFork cur child) (fun _ s' d' =>
      CountOk (fun pid fd => (PipeCall.fork cur child).origin o r s' pid fd) {p | p ∈ pages ∨ s'.pipes p ≠ none} s' d') s d := by
  obtain ⟨hnew, hmax⟩ : s.tasks child = none ∧ child ≤ maxPid := hl
  unfold sysFork runningThread
  refine wp_bind.2 (wp_bind.2 (wp_readM.2 ?_))
  cases ht : s.tasks cur with
  | none => exact wp_stop.2 trivial
  | some t =>
    have hne : cur ≠ child := by
      intro he
      rw [he, hnew] at ht
      cases ht
    refine wp_pure.2 (wp_bind.2 (wp_modifyM.2 ?_))
    generalize hs : ({ s with tasks := upd s.tasks child (some { t with parentPid := cur }) } : Mem) = s₁
    have hT : s₁.tasks = upd s.tasks child (some { t with parentPid := cur }) := by rw [← hs]
    have hdir : ∀ pid fd i, Directed s₁ pid fd i ↔ if pid = child then Directed s cur fd i else Directed s pid fd i := by
      intro pid fd i
      unfold Directed
      rw [hT]
      by_cases hp : pid = child
      · rw [hp, upd_self, if_pos rfl, ht]
        simp only [Option.some.injEq, exists_eq_left']
      · rw [upd_ne hp, if_neg hp]
    have hcur : ∀ fd i, Refers s₁ cur fd i → Refers s cur fd i := by
      intro fd i hr
      obtain ⟨hd, h1, h2⟩ := hr.directed
      have hd' := (hdir cur fd i).1 hd
      rw [if_neg hne] at hd'
      exact hd'.refers h1 h2
    have hpiped : ∀ i, Piped s₁ i ↔ Piped s i := by
      intro i
      unfold Piped
      rw [← hs]
    have hstart : uncounted s₁.tasks child 3 = refsOf s.tasks := by
      funext k
      unfold uncounted
      rw [hT, refsOf_upd]
      by_cases hk : k.1 = child
      · have hnone : refsOf s.tasks k = none := by
          unfold refsOf
          rw [hk, hnew]
          rfl
        rw [if_pos hk, hnone]
        split
        · rfl
        · rename_i hout
          exact refsOf_out _ (.inl (Nat.lt_of_not_le fun hle => hout ⟨hk, hle⟩))
      · rw [if_neg hk, if_neg fun he => hk he.1]
    have hb : Books (uncounted s₁.tasks child 3) s₁ d := by
      rw [hstart, ← hs]
      exact h.toBooks.retask _
    have hchild : s₁.tasks child = some { t with parentPid := cur } := by rw [hT, upd_self]
    refine wp_bind.2 (wp_mono (ends_updateInodeOpenCnts_pipes hmax hchild (fun fd i hr => ?_) (fun fd i hr => ?_)
      (Nat.le_refl 3) (by decide) (.refl s₁) hb) ?_)
    · exact (h.refersValid (hcur fd i hr)).imp id (hpiped i).2
    · obtain ⟨t', ht', -, -, hi⟩ := hcur fd i hr
      rw [ht] at ht'
      cases ht'
      exact hi
    · intro _ s₂ d₂ hr
      obtain ⟨rfl, hrec, hb₂⟩ := hr
      have hinode : ∀ i, (s₂.fileTable i).fdInode = (s.fileTable i).fdInode := fun i => by rw [hrec.inode, ← hs]
      have hpipes : s₂.pipes = s.pipes := by rw [hrec.pipes, ← hs]
      have hdir₂ : ∀ pid fd i, Directed s₂ pid fd i ↔ if pid = child then Directed s cur fd i else Directed s pid fd i := by
        intro pid fd i
        rw [← hdir pid fd i]
        unfold Directed
        rw [hrec.tasks]
      rw [← hrec.tasks] at hb₂
      refine wp_pure.2 ⟨hb₂, fun pid t' ht' => ?_, fun pid fd i hd hlt => ?_, fun pid fd p => ?_,
        fun p hp => (hb₂.allPages h.brk (hpipes ▸ h.taken) hp).1, fun p hp => (hb₂.allPages h.brk (hpipes ▸ h.taken) hp).2⟩
      · rw [hrec.tasks, hT] at ht'
        by_cases hp : pid = child
        · rw [hp]
          exact hmax
        · rw [upd_ne hp] at ht'
          exact h.pids pid t' ht'
      · have hd' := (hdir₂ pid fd i).1 hd
        rw [hrec.piped, hpiped]
        split at hd'
        · exact h.valid cur fd i hd' hlt
        · exact h.valid pid fd i hd' hlt
      · have hor : (PipeCall.fork cur child).origin o r s₂ pid fd = if pid = child then o cur fd else o pid fd := rfl
        rw [hor]
        simp only [hdir₂, hinode]
        split
        · exact h.origin cur fd p
        · exact h.origin pid fd p

/-! ### `sys_fd_redirect` and `sys_Iseek` -/

/-- What a descriptor is redirected to. -/
def redirectTo (t : Task) (newLocalFd : Nat) : Int := if newLocalFd < 3 then newLocalFd else t.fdTable newLocalFd

theorem ends_sysFdRedirect {oldLocalFd newLocalFd : Nat} : ends (sysFdRedirect cur oldLocalFd newLocalFd)
    (fun _ s' d' => d' = d ∧ oldLocalFd < maxFilesOpenPerProc ∧ (3 ≤ newLocalFd → newLocalFd < maxFilesOpenPerProc) ∧
      ∃ t, s.tasks cur = some t ∧ s' = { s with
        tasks := upd s.tasks cur (some { t with fdTable := upd t.fdTable oldLocalFd (redirectTo t newLocalFd) }) }) s d := by
  unfold sysFdRedirect runningThread
  refine wp_bind.2 (wp_bind.2 (wp_readM.2 ?_))
  cases ht : s.tasks cur with
  | none => exact wp_stop.2 trivial
  | some t =>
    have hset : ∀ v, exec device (setFd cur oldLocalFd v) s d = .ok ((), { s with
        tasks := upd s.tasks cur (some { t with fdTable := upd t.fdTable oldLocalFd v }) }, d) := by
      intro v
      unfold setFd
      rw [exec_bind_ok device (exec_runningThread ht)]
      rfl
    refine wp_pure.2 (wp_ite (fun _ => wp_stop.2 trivial) fun hold => ?_)
    have hlt : oldLocalFd < maxFilesOpenPerProc := Nat.lt_of_not_le hold
    refine wp_ite (fun hnew => ?_) fun hnew => wp_ite (fun hmax => ?_) fun _ => wp_stop.2 trivial
    · refine (wp_ok (hset newLocalFd)).2 ⟨rfl, hlt, fun h3 => by omega, t, rfl, ?_⟩
      rw [redirectTo, if_pos hnew]
    · refine (wp_ok (hset (t.fdTable newLocalFd))).2 ⟨rfl, hlt, fun _ => hmax, t, rfl, ?_⟩
      rw [redirectTo, if_neg hnew]

theorem CountOk.ends_sysFdRedirect {oldLocalFd newLocalFd : Nat} (h : CountOk o pages s d)
    (hc : (PipeCall.redirect cur oldLocalFd newLocalFd).Counting s) (r : Option (Int × Int)) :
    ends (sysFdRedirect cur oldLocalFd newLocalFd) (fun _ s' d' =>
      CountOk (fun pid fd => (PipeCall.redirect cur oldLocalFd newLocalFd).origin o r s' pid fd)
        {p | p ∈ pages ∨ s'.pipes p ≠ none} s' d') s d := by
  refine wp_mono Fs.ends_sysFdRedirect ?_
  intro _ s' d' hr
  obtain ⟨rfl, hold, hnew, t, ht, rfl⟩ := hr
  generalize hv : redirectTo t newLocalFd = v
  generalize hs : ({ s with tasks := upd s.tasks cur (some { t with fdTable := upd t.fdTable oldLocalFd v }) } : Mem) = s₁
  have hT : s₁.tasks = upd s.tasks cur (some { t with fdTable := upd t.fdTable oldLocalFd v }) := by rw [← hs]
  have hdir : ∀ pid fd i, Directed s₁ pid fd i ↔
      if pid = cur ∧ fd = oldLocalFd then v = (i : Int) else Directed s pid fd i := fun pid fd i => directed_setFd hT ht
  -- a target that is a slot is a standard stream or that of the new descriptor
  have htarget : ∀ i : Nat, v = (i : Int) → newLocalFd < 3 ∧ i < 3 ∨ 3 ≤ newLocalFd ∧ Directed s cur newLocalFd i := by
    intro i hi
    rw [← hv, redirectTo] at hi
    split at hi
    · exact .inl ⟨by omega, by omega⟩
    · exact .inr ⟨by omega, t, ht, hi⟩
  have hvalid : ∀ i : Nat, v = (i : Int) → i < 3 ∨ Piped s i := by
    intro i hi
    cases htarget i hi with
    | inl hstd => exact .inl hstd.2
    | inr hd => exact h.valid cur newLocalFd i hd.2 (hnew hd.1)
  have hrefs : refsOf s₁.tasks = refsOf s.tasks := by
    rw [hT, refsOf_setFd ht v]
    refine update_eq_self_iff.2 ?_
    unfold refsOf
    dsimp only
    rw [upd_self, ht, Option.bind_some, Option.bind_some]
    dsimp only
    rw [upd_self]
    cases hc with
    | inl h3 =>
      unfold fdRef
      rw [if_neg fun he => by omega, if_neg fun he => by omega]
    | inr hsame =>
      refine Option.ext fun i => ?_
      have hiff : ∀ w : Int, fdRef oldLocalFd w = some i ↔ 3 ≤ oldLocalFd ∧ w = (i : Int) ∧ 3 ≤ i := by
        intro w
        unfold fdRef
        constructor
        · intro he
          split at he
          · cases he
            exact ⟨by omega, by omega, by omega⟩
          · cases he
        · intro he
          rw [if_pos ⟨he.1, hold, by omega⟩, he.2.1, Int.toNat_natCast]
      rw [hiff, hiff]
      refine and_congr_right fun h3 => ?_
      constructor
      · intro he
        obtain ⟨p, -, -, hflag, -⟩ := h.page ((hvalid i he.1).resolve_left (by omega))
        cases htarget i he.1 with
        | inl hstd => omega
        | inr hd =>
          obtain ⟨t', ht', hi⟩ := (hsame i hflag).2 hd
          rw [ht] at ht'
          cases ht'
          exact ⟨hi, he.2⟩
      · intro he
        have hd : Directed s cur oldLocalFd i := ⟨t, ht, he.1⟩
        obtain ⟨p, -, -, hflag, -⟩ := h.page ((h.valid cur oldLocalFd i hd hold).resolve_left (by omega))
        obtain ⟨h3', t', ht', hi⟩ := (hsame i hflag).1 hd
        rw [ht] at ht'
        cases ht'
        refine ⟨?_, he.2⟩
        rw [← hv, redirectTo, if_neg (by omega)]
        exact hi
  have hb : Books (refsOf s₁.tasks) s₁ d' := by
    rw [hrefs, ← hs]
    exact h.toBooks.retask _
  have hpiped : ∀ i, Piped s₁ i ↔ Piped s i := fun i => by unfold Piped; rw [← hs]
  have hinode : ∀ i, s₁.fileTable i = s.fileTable i := fun i => by rw [← hs]
  have hpipes : s₁.pipes = s.pipes := by rw [← hs]
  refine ⟨hb, fun pid t' ht' => ?_, fun pid fd i hd hlt => ?_, fun pid fd p => ?_,
    fun p hp => (hb.allPages h.brk (hpipes ▸ h.taken) hp).1, fun p hp => (hb.allPages h.brk (hpipes ▸ h.taken) hp).2⟩
  · by_cases hp : pid = cur
    · rw [hp]
      exact h.pids cur t ht
    · rw [hT, upd_ne hp] at ht'
      exact h.pids pid t' ht'
  · have hd' := (hdir pid fd i).1 hd
    rw [hpiped]
    split at hd'
    · exact hvalid i hd'
    · exact h.valid pid fd i hd' hlt
  · have hor : (PipeCall.redirect cur oldLocalFd newLocalFd).origin o r s₁ pid fd =
      if pid = cur ∧ fd = oldLocalFd then if newLocalFd < 3 then none else o cur newLocalFd else o pid fd := rfl
    rw [hor]
    simp only [hdir, hinode]
    split
    · rename_i he
      split
      · rename_i h3
        refine ⟨fun he => (nomatch he), fun hp => ?_⟩
        obtain ⟨-, i, hi, hlt, hip⟩ := hp
        cases htarget i hi with
        | inl hstd =>
          obtain ⟨hge, -⟩ := h.slots i p hlt hip
          omega
        | inr hd => omega
      · rename_i h3
        have hto : ∀ i : Nat, v = (i : Int) ↔ Directed s cur newLocalFd i := by
          intro i
          constructor
          · intro hi
            cases htarget i hi with
            | inl hstd => omega
            | inr hd => exact hd.2
          · intro hd
            obtain ⟨t', ht', hi⟩ := hd
            rw [ht] at ht'
            cases ht'
            rw [← hv, redirectTo, if_neg h3]
            exact hi
        rw [h.origin cur newLocalFd p, he.2]
        simp only [hto, hnew (by omega), hold, true_and]
    · exact h.origin pid fd p

theorem seekPos_zero {fdPos : Nat} {offset : Int} {whence : Nat} (hw : 0 < whence ∧ whence < 4)
    (hz : seekPos fdPos 1 offset whence = 0) : PipeCall.Rewinds fdPos offset whence := by
  have hmod : ∀ x : Int, x.bmod 4294967296 = 0 → (4294967296 : Int) ∣ x := fun x hx => Int.dvd_of_bmod_eq_zero hx
  unfold seekPos at hz
  split at hz
  · rename_i h1
    exact .inl ⟨h1, hz⟩
  · split at hz
    · rename_i h2
      exact .inr (.inl ⟨h2, hmod _ hz⟩)
    · exact .inr (.inr ⟨by omega, hmod _ hz⟩)

/-- The slot of any descriptor. -/
theorem ends_fdSlot : ends (fdLocal2global cur fd)
    (fun i s' d' => s' = s ∧ d' = d ∧ Directed s cur fd i ∧ fd < maxFilesOpenPerProc ∧ i < maxFileOpen) s d := by
  unfold fdLocal2global runningThread
  refine wp_bind.2 (wp_bind.2 (wp_readM.2 ?_))
  cases ht : s.tasks cur with
  | none => exact wp_stop.2 trivial
  | some t =>
    refine wp_pure.2 (wp_ite (fun hlt => ?_) fun _ => wp_stop.2 trivial)
    refine wp_bind.2 (wp_assert_weak fun hg => wp_pure.2 ⟨rfl, rfl, ⟨t, ht, ?_⟩, hlt, ?_⟩)
    · omega
    · omega

/-- A seek on a pipe that does not rewind it fails. -/
theorem CountOk.ends_sysIseek (h : CountOk o pages s d) {k offset : Int} {whence : Nat}
    (hc : (PipeCall.seek cur k offset whence).Counting s) :
    ends (sysIseek cur k offset whence) (fun _ s' d' => s' = s ∧ d' = d) s d := by
  unfold sysIseek
  refine wp_ite (fun _ => wp_pure.2 ⟨rfl, rfl⟩) fun _ => wp_bind.2 (wp_assert_weak fun hw => ?_)
  refine wp_bind.2 (wp_mono ends_fdSlot ?_)
  intro i s₁ d₁ hl
  obtain ⟨rfl, rfl, hd, hlt, hi⟩ := hl
  unfold fdSize fdInode
  simp only [bind_assoc]
  refine wp_bind.2 (wp_readM.2 ?_)
  cases hp : (s₁.fileTable i).fdInode with
  | none => exact wp_stop.2 trivial
  | some p =>
    obtain ⟨-, hflag, hpipe⟩ := h.slots i p hi hp
    refine wp_bind.2 (wp_pure.2 (wp_bind.2 (wp_readM.2 ?_)))
    dsimp only [id]
    rw [if_pos (Option.isSome_iff_ne_none.2 hpipe)]
    refine wp_bind.2 (wp_pure.2 (wp_bind.2 (wp_readM.2 ?_)))
    refine wp_ite (fun _ => wp_pure.2 ⟨rfl, rfl⟩) fun hin => ?_
    -- byte 0 is the only one in range
    have hone : ((1 : Nat) : Int).bmod 4294967296 = 1 := by decide
    rw [hone] at hin
    exact absurd (seekPos_zero hw (by omega)) (hc i hd hflag)

/-! ### `sys_pipe` -/

/-- The books with a new pipe, counted 2, and its two descriptors. -/
theorem Books.open (h : Books ref s d) {k' : Pid × Nat} (hi : 3 ≤ i ∧ i < maxFileOpen) (hfree : (s.fileTable i).fdInode = none)
    (hp : p = d.heap.brk) (hne : k' ≠ k) (hk : ref k = none) (hk' : ref k' = none)
    (hkey : k.1 ≤ maxPid ∧ k.2 < maxFilesOpenPerProc) (hkey' : k'.1 ≤ maxPid ∧ k'.2 < maxFilesOpenPerProc)
    (hfiles : s'.fileTable = upd s.fileTable i ⟨2, pipeFlag, some p⟩) (hpipes : s'.pipes = upd s.pipes p (some ioqueueInit)) :
    Books (update (update ref k (some i)) k' (some i)) s' (d.alloc none) := by
  have hself : s'.fileTable i = ⟨2, pipeFlag, some p⟩ := by rw [hfiles, upd_self]
  have hslot : ∀ {j}, j ≠ i → s'.fileTable j = s.fileTable j := fun hj => by rw [hfiles, upd_ne hj]
  have hnopipe : s.pipes p = none := by
    by_contra hpipe
    have hlt := h.below none p (h.live p hpipe)
    rw [hp] at hlt
    exact Nat.lt_irrefl _ hlt
  have hpipe : ∀ {q}, q ≠ p → s'.pipes q = s.pipes q := fun hq => by rw [hpipes, upd_ne hq]
  have hpself : s'.pipes p = some ioqueueInit := by rw [hpipes, upd_self]
  have hpiped : ∀ j, Piped s' j ↔ j = i ∨ Piped s j := by
    intro j
    unfold Piped
    by_cases hj : j = i
    · rw [hj, hself]
      simp [hi.2]
    · rw [hslot hj]
      simp [hj]
  have hnoref : ∀ x, ref x ≠ some i := fun x hx => (h.used x i hx).2 hfree
  have hold : ∀ x j, update (update ref k (some i)) k' (some i) x = some j →
      (x = k ∧ j = i ∨ x = k' ∧ j = i) ∨ ref x = some j := by
    intro x j hx
    by_cases h1 : x = k'
    · rw [h1, update_self] at hx
      cases hx
      exact .inl (.inr ⟨h1, rfl⟩)
    · rw [update_of_ne h1] at hx
      by_cases h2 : x = k
      · rw [h2, update_self] at hx
        cases hx
        exact .inl (.inl ⟨h2, rfl⟩)
      · rw [update_of_ne h2] at hx
        exact .inr hx
  have hinode : ∀ j q, j < maxFileOpen → (s'.fileTable j).fdInode = some q →
      j = i ∧ q = p ∨ j ≠ i ∧ (s.fileTable j).fdInode = some q ∧ q ≠ p := by
    intro j q hj hq
    by_cases hji : j = i
    · rw [hji, hself] at hq
      cases hq
      exact .inl ⟨hji, rfl⟩
    · rw [hslot hji] at hq
      refine .inr ⟨hji, hq, fun he => ?_⟩
      exact (h.slots j q hj hq).2.2 (he ▸ hnopipe)
  constructor
  case keys =>
    intro x j hx
    rcases hold x j hx with (⟨hx, -⟩ | ⟨hx, -⟩) | hx
    · exact hx ▸ hkey
    · exact hx ▸ hkey'
    · exact h.keys x j hx
  case used =>
    intro x j hx
    rcases hold x j hx with (⟨-, hj⟩ | ⟨-, hj⟩) | hx
    · exact (hpiped j).2 (.inl hj)
    · exact (hpiped j).2 (.inl hj)
    · exact (hpiped j).2 (.inr (h.used x j hx))
  case slots =>
    intro j q hj hq
    rcases hinode j q hj hq with ⟨hji, hqp⟩ | ⟨hji, hq, hqp⟩
    · rw [hji, hself, hqp, hpself]
      exact ⟨hi.1, rfl, Option.some_ne_none _⟩
    · rw [hslot hji, hpipe hqp]
      exact h.slots j q hj hq
  case std =>
    intro j hj
    rw [hslot (by omega)]
    exact h.std j hj
  case own =>
    intro q hq
    by_cases hqp : q = p
    · exact ⟨i, hi.2, by rw [hself, hqp]⟩
    · rw [hpipe hqp] at hq
      obtain ⟨j, hj, hjq⟩ := h.own q hq
      refine ⟨j, hj, ?_⟩
      rw [hslot, hjq]
      intro hji
      rw [hji, hfree] at hjq
      cases hjq
  case inj =>
    intro j j' q hj hj' hq hq'
    rcases hinode j q hj hq with ⟨hji, hqp⟩ | ⟨-, hq, hqp⟩
    · rcases hinode j' q hj' hq' with ⟨hji', -⟩ | ⟨-, -, hqp'⟩
      · rw [hji, hji']
      · exact absurd hqp hqp'
    · rcases hinode j' q hj' hq' with ⟨-, hqp'⟩ | ⟨-, hq', -⟩
      · exact absurd hqp' hqp
      · exact h.inj j j' q hj hj' hq hq'
  case count =>
    have hfin := h.fin
    have hk'₁ : update ref k (some i) k' = none := by rw [update_of_ne hne, hk']
    intro j hj
    have hzero : refCount ref i = 0 := (refCount_eq_zero hfin).2 hnoref
    have hq : (quits j : Int) = 0 := rfl
    rw [refCount_attach (hfin.update k _) hk'₁, refCount_attach hfin hk]
    dsimp only
    rcases (hpiped j).1 hj with hji | hold
    · rw [hji, hself, hzero, if_pos rfl]
      rfl
    · have hji : j ≠ i := fun he => hold.2 (he ▸ hfree)
      have hc : ((s.fileTable j).fdPos : Int) = refCount ref j + quits j := h.count j hold
      rw [hslot hji, if_neg hji]
      omega
  case pos =>
    intro j hj
    rcases (hpiped j).1 hj with hji | hold
    · rw [hji, hself]
      exact Nat.succ_pos 1
    · have hji : j ≠ i := fun he => hold.2 (he ▸ hfree)
      rw [hslot hji]
      exact h.pos j hold
  case live =>
    intro q hq
    by_cases hqp : q = p
    · rw [hqp, hp]
      exact List.mem_cons_self
    · rw [hpipe hqp] at hq
      exact List.mem_cons_of_mem _ (h.live q hq)
  case below =>
    intro o q hq
    rcases List.mem_cons.1 hq with he | hq
    · cases he
      exact Nat.lt_succ_self _
    · exact Nat.lt_succ_of_lt (h.below o q hq)
  case nodup =>
    refine List.nodup_cons.2 ⟨fun hm => ?_, h.nodup⟩
    exact Nat.lt_irrefl _ (h.below none d.heap.brk hm)

/-- Only the allocator went on. -/
theorem CountOk.rest {o' : Pid → Nat → Option Ptr} (h : CountOk o pages s d) (hlive : d'.heap.live = d.heap.live)
    (hbrk : d.heap.brk ≤ d'.heap.brk) (ho : ∀ pid fd, o' pid fd = o pid fd) :
    CountOk o' {p | p ∈ pages ∨ s.pipes p ≠ none} s d' := by
  have hb : Books (refsOf s.tasks) s d' := by
    refine ⟨h.keys, h.used, h.slots, h.std, h.own, h.inj, h.count, h.pos, ?_, ?_, ?_⟩
    · rw [hlive]
      exact h.live
    · rw [hlive]
      exact fun o p hp => Nat.lt_of_lt_of_le (h.below o p hp) hbrk
    · rw [hlive]
      exact h.nodup
  have hbrk' : ∀ p ∈ pages, p < d'.heap.brk := fun p hp => Nat.lt_of_lt_of_le (h.brk p hp) hbrk
  have htaken : ∀ p ∈ pages, (none, p) ∈ d'.heap.live → s.pipes p ≠ none := by
    rw [hlive]
    exact h.taken
  refine ⟨hb, h.pids, h.valid, fun pid fd p => ?_, fun p hp => (hb.allPages hbrk' htaken hp).1,
    fun p hp => (hb.allPages hbrk' htaken hp).2⟩
  rw [ho]
  exact h.origin pid fd p

/-- Two descriptors of `cur` now refer to slot `i`. -/
structure TwoAdded (cur : Pid) (i a b : Nat) (T T' : Pid → Option Task) : Prop where
  refs : refsOf T' = update (update (refsOf T) (cur, a) (some i)) (cur, b) (some i)
  free : refsOf T (cur, a) = none ∧ refsOf T (cur, b) = none
  ne : b ≠ a
  lt : a < maxFilesOpenPerProc ∧ b < maxFilesOpenPerProc
  tasks : ∃ t t', T cur = some t ∧ T' = upd T cur (some t') ∧
    ∀ fd, t'.fdTable fd = if fd = a ∨ fd = b then (i : Int) else t.fdTable fd

theorem FdAdded.counted {r : Int} (hf : FdAdded cur i r T T') (hi : 3 ≤ i) (hr : r ≠ -1) : ∃ a t, r = ((a : Nat) : Int) ∧ 3 ≤ a ∧
    a < maxFilesOpenPerProc ∧ T cur = some t ∧ t.fdTable a = -1 ∧ T' = upd T cur (some { t with fdTable := upd t.fdTable a i }) ∧
    refsOf T (cur, a) = none ∧ refsOf T' = update (refsOf T) (cur, a) (some i) := by
  cases hf with
  | inl hnone => exact absurd hnone.1 hr
  | inr hadd =>
    obtain ⟨t, a, ht, h3, hlt, hfree, hra, hT⟩ := hadd
    refine ⟨a, t, hra, h3, hlt, ht, hfree, hT, ?_, ?_⟩
    · unfold refsOf
      rw [ht, Option.bind_some]
      dsimp only
      rw [hfree]
      exact fdRef_none (by decide)
    · rw [hT, refsOf_setFd ht]
      congr 1
      refine refsOf_eq_some.2 ⟨_, upd_self .., h3, hlt, ?_, hi⟩
      exact upd_self ..

theorem ends_installTwo (hi : 3 ≤ i) (hc : (PipeCall.pipe cur).Counting s) : ends
    (do let fd0 ← pcbFdInstall cur i; let fd1 ← pcbFdInstall cur i; pure ((0 : Int), fd0, fd1))
    (fun r s' d' => d' = d ∧ s' = { s with tasks := s'.tasks } ∧ ∃ a b : Nat, r = (0, (a : Int), (b : Int)) ∧
      TwoAdded cur i a b s.tasks s'.tasks) s d := by
  obtain ⟨t, fd, fd', ht, h3, hlt, hmax, hfree, hfree'⟩ := hc
  refine wp_bind.2 (wp_mono (ends_pcbFdInstall cur i) ?_)
  intro r₀ s₁ d₁ h₀
  obtain ⟨rfl, hadd₀, hs₁, hfull₀⟩ := h₀
  have hr₀ : r₀ ≠ -1 := by
    intro he
    obtain ⟨t', ht', hall⟩ := hfull₀ he
    rw [ht] at ht'
    cases ht'
    exact hall fd h3 (by omega) hfree
  obtain ⟨a, ta, hra, h3a, hlta, hta, hfreea, hTa, hnonea, hrefsa⟩ := hadd₀.counted hi hr₀
  rw [ht] at hta
  cases hta
  have ht₁ : s₁.tasks cur = some { t with fdTable := upd t.fdTable a i } := by rw [hTa, upd_self]
  refine wp_bind.2 (wp_mono (ends_pcbFdInstall cur i) ?_)
  intro r₁ s₂ d₂ h₁
  obtain ⟨rfl, hadd₁, hs₂, hfull₁⟩ := h₁
  have hr₁ : r₁ ≠ -1 := by
    intro he
    obtain ⟨t', ht', hall⟩ := hfull₁ he
    rw [ht₁] at ht'
    cases ht'
    by_cases hfa : fd = a
    · refine hall fd' (by omega) hmax ?_
      have hne : fd' ≠ a := by omega
      exact (upd_ne hne).trans hfree'
    · exact hall fd h3 (by omega) ((upd_ne hfa).trans hfree)
  obtain ⟨b, tb, hrb, h3b, hltb, htb, hfreeb, hTb, hnoneb, hrefsb⟩ := hadd₁.counted hi hr₁
  rw [ht₁] at htb
  cases htb
  have hne : b ≠ a := by
    intro he
    have hval : upd t.fdTable a (i : Int) b = -1 := hfreeb
    rw [he, upd_self] at hval
    omega
  refine wp_pure.2 ⟨rfl, ?_, a, b, by rw [hra, hrb], ?_⟩
  · rw [hs₂, hs₁]
  · refine ⟨by rw [hrefsb, hrefsa], ⟨hnonea, ?_⟩, hne, ⟨hlta, hltb⟩, t,
      { t with fdTable := upd (upd t.fdTable a (i : Int)) b (i : Int) }, ht, ?_, fun k => ?_⟩
    · rw [hrefsa, update_of_ne fun he => hne (congrArg Prod.snd he)] at hnoneb
      exact hnoneb
    · rw [hTb, hTa]
      funext q
      by_cases hq : q = cur
      · rw [hq, upd_self, upd_self]
      · rw [upd_ne hq, upd_ne hq, upd_ne hq]
    · show upd (upd t.fdTable a (i : Int)) b (i : Int) k = _
      by_cases hkb : k = b
      · rw [hkb, upd_self, if_pos (.inr rfl)]
      · rw [upd_ne hkb]
        by_cases hka : k = a
        · rw [hka, upd_self, if_pos (.inl rfl)]
        · rw [upd_ne hka, if_neg fun he => he.elim hka hkb]

theorem TwoAdded.directed {a b j : Nat} (h : TwoAdded cur i a b s.tasks s'.tasks) : Directed s' pid fd j ↔
    if pid = cur ∧ (fd = a ∨ fd = b) then j = i else Directed s pid fd j := by
  obtain ⟨t, t', ht, hT, htable⟩ := h.tasks
  unfold Directed
  rw [hT]
  by_cases hp : pid = cur
  · rw [hp, upd_self, ht]
    simp only [Option.some.injEq, exists_eq_left', true_and, htable]
    split
    · exact ⟨fun he => (Int.ofNat.inj he).symm, fun he => by rw [he]⟩
    · rfl
  · rw [upd_ne hp, if_neg fun he => hp he.1]

/-- A new pipe and its two descriptors. -/
theorem CountOk.open {a b : Nat} (h : CountOk o pages s d) (hi : 3 ≤ i ∧ i < maxFileOpen) (hfree : (s.fileTable i).fdInode = none)
    (hadd : TwoAdded cur i a b s.tasks s'.tasks) (hp : p = d.heap.brk)
    (hfiles : s'.fileTable = upd s.fileTable i ⟨2, pipeFlag, some p⟩) (hpipes : s'.pipes = upd s.pipes p (some ioqueueInit)) :
    CountOk (fun pid fd => (PipeCall.pipe cur).origin o (some ((a : Int), (b : Int))) s' pid fd) {p | p ∈ pages ∨ s'.pipes p ≠ none}
      s' (d.alloc none) := by
  classical
  obtain ⟨t, t', ht, hT, htable⟩ := hadd.tasks
  have hself : s'.fileTable i = ⟨2, pipeFlag, some p⟩ := by rw [hfiles, upd_self]
  have hslot : ∀ {j}, j ≠ i → s'.fileTable j = s.fileTable j := fun hj => by rw [hfiles, upd_ne hj]
  have hmax := h.pids cur t ht
  have hb : Books (refsOf s'.tasks) s' (d.alloc none) := by
    rw [hadd.refs]
    exact h.toBooks.open hi hfree hp (fun he => hadd.ne (congrArg Prod.snd he)) hadd.free.1 hadd.free.2 ⟨hmax, hadd.lt.1⟩
      ⟨hmax, hadd.lt.2⟩ hfiles hpipes
  have hpiped : ∀ j, Piped s j → Piped s' j := by
    intro j hj
    refine ⟨hj.1, ?_⟩
    have hji : j ≠ i := by
      intro he
      rw [he] at hj
      exact hj.2 hfree
    rw [hslot hji]
    exact hj.2
  have hbrk : ∀ q ∈ pages, q < (d.alloc none).heap.brk := fun q hq => Nat.lt_succ_of_lt (h.brk q hq)
  have htaken : ∀ q ∈ pages, (none, q) ∈ (d.alloc none).heap.live → s'.pipes q ≠ none := by
    intro q hq hlive
    have hqp : q ≠ p := by
      intro he
      have hlt := h.brk q hq
      rw [he, hp] at hlt
      exact Nat.lt_irrefl _ hlt
    rw [hpipes, upd_ne hqp]
    refine h.taken q hq ?_
    rcases List.mem_cons.1 hlive with he | hold
    · exact absurd (congrArg Prod.snd he) (hp ▸ hqp)
    · exact hold
  refine ⟨hb, fun pid u hu => ?_, fun pid fd j hd hlt => ?_, fun pid fd q => ?_, fun q hq => (hb.allPages hbrk htaken hq).1,
    fun q hq => (hb.allPages hbrk htaken hq).2⟩
  · by_cases hpid : pid = cur
    · rw [hpid]
      exact hmax
    · rw [hT, upd_ne hpid] at hu
      exact h.pids pid u hu
  · have hd' := hadd.directed.1 hd
    split at hd'
    · rw [hd']
      exact .inr ⟨hi.2, by rw [hself]; exact Option.some_ne_none p⟩
    · exact (h.valid pid fd j hd' hlt).imp id (hpiped j)
  · have hor : (PipeCall.pipe cur).origin o (some ((a : Int), (b : Int))) s' pid fd =
        if pid = cur ∧ (fd = a ∨ fd = b) then fdInodeOf s' cur fd else o pid fd := by
      unfold PipeCall.origin
      have hiff : (∃ fds : Int × Int, some ((a : Int), (b : Int)) = some fds ∧ (fds.1 = (fd : Int) ∨ fds.2 = (fd : Int))) ↔
          fd = a ∨ fd = b := by
        simp only [Option.some.injEq, exists_eq_left']
        omega
      simp only [hiff]
    rw [hor]
    simp only [hadd.directed]
    split
    · rename_i hnew
      have hinode : fdInodeOf s' cur fd = some p := by
        unfold fdInodeOf
        rw [hT, upd_self, Option.bind_some, htable, if_pos hnew.2, Int.toNat_natCast, hself]
      have hfd : fd < maxFilesOpenPerProc := by
        have hlt := hadd.lt
        omega
      rw [hinode]
      constructor
      · intro he
        cases he
        exact ⟨hfd, i, rfl, hi.2, by rw [hself]⟩
      · intro he
        obtain ⟨-, j, rfl, -, hq⟩ := he
        rw [hself] at hq
        exact hq
    · rw [h.origin pid fd q]
      refine and_congr_right fun hlt => exists_congr fun j => and_congr_right fun hd => and_congr_right fun hj => ?_
      -- nobody refers to the slot that was free
      have hji : j ≠ i := by
        intro he
        rw [he] at hd
        cases h.valid pid fd i hd hlt with
        | inl h3 => omega
        | inr hin => exact hin.2 hfree
      rw [hslot hji]

theorem CountOk.ends_sysPipe (h : CountOk o pages s d) (hc : (PipeCall.pipe cur).Counting s) :
    ends (PipeCall.pipe cur).prog (fun r s' d' =>
      CountOk (fun pid fd => (PipeCall.pipe cur).origin o r s' pid fd) {p | p ∈ pages ∨ s'.pipes p ≠ none} s' d') s d := by
  unfold PipeCall.prog sysPipe getFreeSlotInGlobal
  simp only [bind_assoc]
  refine wp_bind.2 (wp_readM.2 ?_)
  cases hg : freeSlotFrom s.fileTable (maxFileOpen - 3) 3 with
  | none => exact wp_stop.2 trivial
  | some i =>
    obtain ⟨h3, hlt, hfree⟩ := freeSlotFrom_some _ hg
    have hi : 3 ≤ i ∧ i < maxFileOpen := ⟨h3, by unfold maxFileOpen at hlt ⊢; omega⟩
    simp only [bind_assoc]
    cases hok : d.heap.ok d.heap.brk with
    | false =>
      have hm : exec device (sysMalloc none) s d = .ok (none, s, { d with heap := { d.heap with brk := d.heap.brk + 1 } }) := by
        unfold sysMalloc
        simp only [exec_perform_bind, device, hok]
        rfl
      have hsame : ({ s with fileTable := upd s.fileTable i { s.fileTable i with fdInode := none } } : Mem) = s := by
        have htable : upd s.fileTable i { s.fileTable i with fdInode := none } = s.fileTable := by
          funext j
          by_cases hj : j = i
          · rw [hj, upd_self, ← hfree]
          · rw [upd_ne hj]
        rw [htable]
      refine (wp_bind_ok hm).2 (wp_bind.2 (wp_modifyM.2 ?_))
      rw [hsame]
      refine wp_pure.2 (h.rest rfl (Nat.le_succ _) fun pid fd => ?_)
      refine if_neg fun he => ?_
      obtain ⟨-, fds, hf, -⟩ := he
      cases hf
    | true =>
      refine (wp_bind_ok (exec_sysMalloc none hok)).2 (wp_bind.2 (wp_modifyM.2 ?_))
      dsimp only
      refine wp_bind.2 (wp_bind.2 (wp_modifyM.2 (wp_bind.2 (wp_modifyM.2 ?_))))
      refine wp_mono (ends_installTwo hi.1 hc) ?_
      intro r s₂ d₂ hr
      obtain ⟨rfl, hs₂, a, b, rfl, hadd⟩ := hr
      refine wp_pure.2 (h.open hi hfree hadd rfl ?_ ?_)
      · rw [hs₂]
        funext j
        dsimp only
        by_cases hj : j = i
        · rw [hj, upd_self, upd_self, upd_self]
        · rw [upd_ne hj, upd_ne hj, upd_ne hj]
      · rw [hs₂]

/-- Every call whose condition holds keeps the books. -/
theorem CountOk.step (h : CountOk o pages s d) {op : PipeCall} {r : Option (Int × Int)} (hl : op.Legal s) (hc : op.Counting s)
    (he : exec device op.prog s d = .ok (r, s', d')) :
    CountOk (op.origin o r s') {p | p ∈ pages ∨ s'.pipes p ≠ none} s' d' := by
  cases op with
  | pipe cur =>
    have hok := wp_exec (h.ends_sysPipe hc) he
    exact hok
  | fork cur child =>
    obtain ⟨_, s₁, d₁, hf, he⟩ := (exec_bind_eq_ok device).1 he
    cases he
    have hok := wp_exec (h.ends_sysFork hl none) hf
    exact hok
  | redirect cur oldLocalFd newLocalFd =>
    obtain ⟨_, s₁, d₁, hf, he⟩ := (exec_bind_eq_ok device).1 he
    cases he
    have hok := wp_exec (h.ends_sysFdRedirect hc none) hf
    exact hok
  | seek cur k offset whence =>
    obtain ⟨_, s₁, d₁, hf, he⟩ := (exec_bind_eq_ok device).1 he
    cases he
    obtain ⟨rfl, rfl⟩ := wp_exec (h.ends_sysIseek hc) hf
    exact h.rest rfl (Nat.le_refl _) fun _ _ => rfl
  | close cur k =>
    obtain ⟨_, s₁, d₁, hf, he⟩ := (exec_bind_eq_ok device).1 he
    cases he
    have hok := wp_exec (h.ends_sysClose hc) hf
    exact hok
  | exit cur =>
    obtain ⟨_, s₁, d₁, hf, he⟩ := (exec_bind_eq_ok device).1 he
    cases he
    have hok := wp_exec (h.ends_sysExit hc) hf
    exact hok

theorem NoPipes.countOk {st : PipeState} (h : NoPipes st) : CountOk st.origin st.pages st.mem st.dev := by
  have hnone : ∀ k i, refsOf st.mem.tasks k ≠ some i := by
    intro k i hk
    obtain ⟨t, ht, -, hlt, hi, h3⟩ := refsOf_eq_some.1 hk
    have hv := h.fds k.1 t k.2 ht hlt
    omega
  have hslots : ∀ i, ¬ Piped st.mem i := fun i hi => hi.2 (h.slots i hi.1)
  have hpage : ∀ i p, i < maxFileOpen → (st.mem.fileTable i).fdInode ≠ some p := by
    intro i p hi hp
    rw [h.slots i hi] at hp
    cases hp
  refine {
    keys := fun k i hk => absurd hk (hnone k i)
    used := fun k i hk => absurd hk (hnone k i)
    slots := fun i p hi hp => absurd hp (hpage i p hi)
    std := h.std
    own := fun p hp => absurd (h.pipes p) hp
    inj := fun i j p hi _ hp => absurd hp (hpage i p hi)
    count := fun i hi => absurd hi (hslots i)
    pos := fun i hi => absurd hi (hslots i)
    live := fun p hp => absurd (h.pipes p) hp
    below := h.below
    nodup := h.nodup
    pids := h.pids
    valid := fun pid fd i hd hlt => .inl ?_
    origin := fun pid fd p => ?_
    brk := ?_
    taken := ?_ }
  · obtain ⟨t, ht, hi⟩ := hd
    have hv := h.fds pid t fd ht hlt
    omega
  · rw [h.origin]
    refine ⟨fun he => (nomatch he), fun he => ?_⟩
    obtain ⟨-, i, -, hi, hp⟩ := he
    exact absurd hp (hpage i p hi)
  · rw [h.pages]
    exact fun p hp => absurd hp (Set.notMem_empty p)
  · rw [h.pages]
    exact fun p hp => absurd hp (Set.notMem_empty p)

theorem CountOk.run {ops : List PipeCall} {st st' : PipeState} (hrun : PipeCallRun (fun s op => op.Counting s) ops st st')
    (h : CountOk st.origin st.pages st.mem st.dev) : CountOk st'.origin st'.pages st'.mem st'.dev := by
  induction hrun with
  | nil => exact h
  | cons hl hc he _ ih => exact ih (h.step hl hc he)

/-- As long as the calls count what they do, pages are kept while they have descriptors
and are free when they have none. -/
theorem pipeCallRun_keeps (ops : List PipeCall) (st st' : PipeState) (h : NoPipes st)
    (hrun : PipeCallRun (fun s op => op.Counting s) ops st st') : PagesKept st' :=
  (h.countOk.run hrun).kept

end

/-- The blank partition, nothing open. -/
def quietState : PipeState := ⟨fun _ _ => none, ∅, rootMem, rootDev⟩

theorem quietState_tasks {pid : Pid} {t : Task} (ht : rootMem.tasks pid = some t) : pid = 1 ∧ ∀ fd, t.fdTable fd = -1 := by
  by_cases hp : pid = 1
  · subst hp
    cases ht
    exact ⟨rfl, fun _ => rfl⟩
  · have ht' : upd blankMem.tasks 1 _ pid = some t := ht
    rw [upd_ne hp] at ht'
    cases ht'

theorem quietState_noPipes : NoPipes quietState where
  origin _ _ := rfl
  pages := rfl
  slots _ _ := rfl
  std i _ := by
    have hflag : (rootMem.fileTable i).fdFlag = 0 := rfl
    show (rootMem.fileTable i).fdFlag ≠ pipeFlag
    rw [hflag]
    decide
  pipes _ := rfl
  fds pid t fd ht _ := by
    have hneg := (quietState_tasks ht).2 fd
    omega
  pids pid t ht := by
    rw [(quietState_tasks ht).1]
    decide
  below o p hp := by cases hp
  nodup := List.nodup_nil

/-- A pipe and a child that has it too. -/
theorem pipeCallRun_keeps_two : ∃ st', PipeCallRun (fun s op => op.Counting s) [.pipe 1, .fork 1 2] quietState st' ∧
    PagesKept st' := by
  have hrun : ∃ st', PipeCallRun (fun s op => op.Counting s) [.pipe 1, .fork 1 2] quietState st' := by
    refine ⟨_, .cons trivial ⟨_, 3, 4, rfl, by decide, by decide, by decide, rfl, rfl⟩ rfl
      (.cons ⟨rfl, by decide⟩ trivial rfl (.nil _))⟩
  obtain ⟨st', hrun⟩ := hrun
  exact ⟨st', hrun, pipeCallRun_keeps _ _ _ quietState_noPipes hrun⟩

/-- Process 1 directs its standard output to the writing end of a pipe and closes both ends. -/
def redirectAndClose : List PipeCall := [.pipe 1, .redirect 1 1 4, .close 1 3, .close 1 4]

theorem exec_redirectAndClose : ∃ s₁ d₁ s₂ d₂ s₃ d₃ s₄ d₄,
    exec device (PipeCall.pipe 1).prog rootMem rootDev = .ok (some (3, 4), s₁, d₁) ∧
    exec device (PipeCall.redirect 1 1 4).prog s₁ d₁ = .ok (none, s₂, d₂) ∧
    exec device (PipeCall.close 1 3).prog s₂ d₂ = .ok (none, s₃, d₃) ∧
    exec device (PipeCall.close 1 4).prog s₃ d₃ = .ok (none, s₄, d₄) ∧
    fdInodeOf s₁ 1 4 = some 8 ∧ (none, 8) ∉ d₄.heap.live :=
  ⟨_, _, _, _, _, _, _, _, rfl, rfl, rfl, rfl, rfl, by decide⟩

theorem redirected_run : ∃ st', PipeCallRun (fun _ _ => True) redirectAndClose quietState st' ∧
    st'.origin 1 1 = some 8 ∧ (none, 8) ∉ st'.dev.heap.live := by
  obtain ⟨s₁, d₁, s₂, d₂, s₃, d₃, s₄, d₄, h₁, h₂, h₃, h₄, hpage, hfree⟩ := exec_redirectAndClose
  refine ⟨_, .cons trivial trivial h₁ (.cons trivial trivial h₂ (.cons trivial trivial h₃
    (.cons trivial trivial h₄ (.nil _)))), ?_, hfree⟩
  have hgone : ∀ k : Int, ¬ (PipeCall.close 1 k).gone 1 1 := fun k hg => absurd hg.2.1 (by decide)
  simp [PipeCall.origin, hgone, hpage]

theorem pipeCallRun_dangles : ¬ ∀ (ops : List PipeCall) (st st' : PipeState), NoPipes st →
    PipeCallRun (fun _ _ => True) ops st st' → PagesKept st' := by
  intro h
  obtain ⟨st', hrun, horigin, hfree⟩ := redirected_run
  obtain ⟨i, -, -, -, hlive⟩ := (h _ _ _ quietState_noPipes hrun).held 1 1 8 horigin
  exact hfree hlive

end Enix.Fs
