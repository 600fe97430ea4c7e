import Enix.Thread.Effect

/-!
# Families

`Clan` is what `fork`, `exit` and `wait` see of the tasks: pids, parents, exit
statuses and how far each has come. `Family` is kept by each of their steps
(`Family.step`): pids differ, the parent of every process but init is a process
that has not exited, and a process that hangs has left its exit value on the log.
-/
set_option autoImplicit false

namespace Enix.Thread
open Enix.Core Enix.Kernel Function
open Enix.Memory (TaskStatus)

/-- How far a task has come; the scheduler moves only those that are `live`. -/
inductive Stage where
  | live | waiting | hanging | died
  deriving DecidableEq, Repr

def stage : TaskStatus → Stage
  | .running | .ready | .blocked => .live
  | .waiting => .waiting
  | .hanging => .hanging
  | .died => .died

structure Kin where
  pid : Int
  parentPid : Int
  process : Bool
  exitStatus : Int
  stage : Stage
  deriving DecidableEq, Repr

def Task.kin (t : Task) : Kin := ⟨t.pid, t.parentPid, t.process, t.exitStatus, Thread.stage t.status⟩

@[ext] structure Clan where
  kin : Nat → Option Kin
  all : List Nat
  pids : Bitmap
  main : Nat

def Threads.clan (s : Threads) : Clan :=
  ⟨fun p => (s.tasks p).map (·.kin), s.threadAllList, s.pidBitmap, s.mainThread⟩

/-! ## What the calls do to a family -/

namespace Clan

def birth (c : Clan) (i q : Nat) (k : Kin) : Clan :=
  ⟨update c.kin q (some k), c.all ++ [q], c.pids.set i true, c.main⟩

/-- What becomes of `q` when `p`, which is `t`, exits with value `v`: the children of
`p` belong to init, `p` hangs and its parent is awake. -/
def afterExit (p : Nat) (t : Kin) (v : Int) (parent q : Nat) (k : Kin) : Kin := { k with
  parentPid := if k.parentPid = t.pid then 1 else k.parentPid
  exitStatus := if q = p then v.bmod 256 else k.exitStatus
  stage := if q = p then .hanging else if q = parent ∧ k.stage = .waiting then .live else k.stage }

def exit (c : Clan) (p : Nat) (t : Kin) (v : Int) (parent : Nat) : Clan :=
  { c with kin := fun q => (c.kin q).map (afterExit p t v parent q) }

/-- `q` is on no list any more; a PCB that is kept has died. -/
def bury (c : Clan) (q : Nat) (k : Kin) (kept : Bool) : Clan :=
  ⟨update c.kin q (if kept then some { k with stage := .died } else none), c.all.erase q,
    c.pids.set (k.pid - 1).toNat false, c.main⟩

end Clan

/-- What a call of `p` may do to the family. -/
inductive Clan.Step (c : Clan) (p : Nat) : Option Event → Clan → Prop where
  | same : Step c p none c
  | lose (i : Nat) : Step c p none { c with pids := c.pids.set i true }
  | start (i q : Nat) (h : c.kin q = none) (hb : c.pids.bit i = false) :
      Step c p (some (.born q)) (c.birth i q ⟨i + 1, -1, false, 0, .live⟩)
  | fork (i q : Nat) (t : Kin) (ht : c.kin p = some t) (hp : t.process = true) (hl : t.stage = .live)
      (h : c.kin q = none) (hb : c.pids.bit i = false) :
      Step c p (some (.born q)) (c.birth i q { t with pid := i + 1, parentPid := t.pid })
  | exit (v : Int) (t tp : Kin) (parent : Nat) (ht : c.kin p = some t) (hp : t.process = true) (hl : t.stage = .live)
      (hroot : t.parentPid ≠ -1) (hall : parent ∈ c.all) (htp : c.kin parent = some tp) (hpid : tp.pid = t.parentPid) :
      Step c p (some (.exited p v)) (c.exit p t v parent)
  | sleep (t : Kin) (ht : c.kin p = some t) (hp : t.process = true) (hl : t.stage = .live)
      (hno : ∀ q u, c.kin q = some u → u.parentPid = t.pid → u.stage ≠ .hanging) :
      Step c p none { c with kin := update c.kin p (some { t with stage := .waiting }) }
  | reap (q : Nat) (t u : Kin) (ht : c.kin p = some t) (hu : c.kin q = some u) (hpar : u.parentPid = t.pid)
      (hst : u.stage = .hanging) :
      Step c p (some (.waited p (.child q u.pid (statusCode .hanging)))) (c.bury q u false)
  | noChild (t : Kin) (ht : c.kin p = some t)
      (hno : ∀ q u, q ∈ c.all → c.kin q = some u → u.parentPid ≠ t.pid) : Step c p (some (.waited p .noChild)) c
  | leave (t : Kin) (ht : c.kin p = some t) (hp : t.process = false) (hl : t.stage = .live) :
      Step c p none (c.bury p t true)

/-- The value that the task with PCB `q` gave to its `sys_exit`, if it has exited
and has not been waited for. -/
def exitOf (q : Nat) : List Event → Option Int
  | [] => none
  | .exited p v :: l => if p = q then some v else exitOf q l
  | .born p :: l => if p = q then none else exitOf q l
  | .waited _ (.child p _ _) :: l => if p = q then none else exitOf q l
  | .waited _ .noChild :: l => exitOf q l

structure Family (c : Clan) (l : List Event) : Prop where
  nodup : c.all.Nodup
  listed : ∀ p, p ∈ c.all ↔ ∃ t, c.kin p = some t ∧ t.stage ≠ .died
  distinct : ∀ p q t u, c.kin p = some t → c.kin q = some u → t.stage ≠ .died → u.stage ≠ .died → t.pid = u.pid → p = q
  taken : ∀ p t, c.kin p = some t → t.stage ≠ .died → ∃ i : Nat, t.pid = i + 1 ∧ c.pids.bit i = true
  stages : ∀ p t, c.kin p = some t → t.process = false → t.stage = .live ∨ t.stage = .died
  processes : ∀ p t, c.kin p = some t → t.process = true → t.stage ≠ .died
  init : ∃ q t, c.kin q = some t ∧ t.pid = 1 ∧ t.process = true ∧ t.parentPid = -1 ∧ t.stage ≠ .hanging
  parent : ∀ p t, c.kin p = some t → t.process = true → t.pid ≠ 1 →
    ∃ q u, c.kin q = some u ∧ u.process = true ∧ u.pid = t.parentPid ∧ u.stage ≠ .hanging
  orphan : ∀ p t, c.kin p = some t → t.process = false → t.parentPid = -1
  notSelf : ∀ p t, c.kin p = some t → t.parentPid ≠ t.pid
  main : ∃ t, c.kin c.main = some t ∧ t.process = false
  exits : ∀ p t, c.kin p = some t → t.stage = .hanging → ∃ v, exitOf p l = some v ∧ t.exitStatus = v.bmod 256

section
variable {c c' : Clan} {l : List Event} {p q i parent : Nat} {t u k tp : Kin} {v : Int} {ev : Option Event}

/-- The only task with pid 1 is init. -/
theorem Family.init_root (h : Family c l) (ht : c.kin p = some t) (hl : t.stage ≠ .died) (hpid : t.pid = 1) :
    t.parentPid = -1 := by
  obtain ⟨q, u, hu, hup, hproc, hroot, -⟩ := h.init
  have hpq : p = q := h.distinct p q t u ht hu hl (h.processes q u hu hproc) (by rw [hpid, hup])
  rw [hpq, hu] at ht
  cases ht
  exact hroot

/-- A process with a parent is not init. -/
theorem Family.not_init (h : Family c l) (ht : c.kin p = some t) (hp : t.process = true) (hroot : t.parentPid ≠ -1) :
    t.pid ≠ 1 := fun hpid => hroot (h.init_root ht (h.processes p t ht hp) hpid)

/-- A pid that is free is nobody's. -/
theorem Family.pid_free (h : Family c l) (hb : c.pids.bit i = false) (ht : c.kin p = some t) (hl : t.stage ≠ .died) :
    t.pid ≠ i + 1 := by
  obtain ⟨j, hj, hbit⟩ := h.taken p t ht hl
  intro he
  have hij : j = i := by omega
  rw [hij, hb] at hbit
  cases hbit

theorem Family.pid_pos (h : Family c l) (ht : c.kin p = some t) (hl : t.stage ≠ .died) : 1 ≤ t.pid := by
  obtain ⟨j, hj, -⟩ := h.taken p t ht hl
  omega

/-- A PCB that is not in use is on no list. -/
theorem Family.not_listed (h : Family c l) (hq : c.kin q = none) : q ∉ c.all := by
  intro hm
  obtain ⟨t, ht, -⟩ := (h.listed q).1 hm
  rw [hq] at ht
  cases ht

/-! ## What a step keeps -/

theorem update_kin {f : Nat → Option Kin} {o : Option Kin} (h : update f q o p = some t) :
    p = q ∧ o = some t ∨ p ≠ q ∧ f p = some t := by
  by_cases hp : p = q
  · rw [hp, update_self] at h
    exact .inl ⟨hp, h⟩
  · rw [update_of_ne hp] at h
    exact .inr ⟨hp, h⟩

theorem Family.lose (h : Family c l) (i : Nat) : Family { c with pids := c.pids.set i true } l := by
  refine { h with taken := fun p t ht hl => ?_ }
  obtain ⟨j, hj, hbit⟩ := h.taken p t ht hl
  refine ⟨j, hj, ?_⟩
  rw [Bitmap.bit_set]
  split
  · rfl
  · exact hbit

theorem exitOf_born_ne (h : p ≠ q) : exitOf p (.born q :: l) = exitOf p l := by
  simp [exitOf, Ne.symm h]

/-- A birth, with a pid that nobody has. -/
theorem Family.birth (h : Family c l) (hq : c.kin q = none) (hb : c.pids.bit i = false) (hpid : k.pid = i + 1)
    (hl : k.stage = .live) (hself : k.parentPid ≠ k.pid) (hroot : k.process = false → k.parentPid = -1)
    (hpar : k.process = true → ∃ r u, c.kin r = some u ∧ u.process = true ∧ u.pid = k.parentPid ∧ u.stage ≠ .hanging) :
    Family (c.birth i q k) (.born q :: l) := by
  have hother : ∀ r u, c.kin r = some u → update c.kin q (some k) r = some u := by
    intro r u hr
    have hne : r ≠ q := by
      rintro he
      rw [he, hq] at hr
      cases hr
    rw [update_of_ne hne]
    exact hr
  have hset : ∀ j, c.pids.bit j = true → (c.pids.set i true).bit j = true := by
    intro j hj
    rw [Bitmap.bit_set]
    split
    · rfl
    · exact hj
  refine ⟨?_, fun p => ?_, fun p r t u ht hu htl hul he => ?_, fun p t ht htl => ?_, fun p t ht hp => ?_, fun p t ht hp => ?_,
    ?_, fun p t ht hp h1 => ?_, fun p t ht hp => ?_, fun p t ht => ?_, ?_, fun p t ht hst => ?_⟩
  · exact h.nodup.append (List.nodup_singleton q) (by simpa using h.not_listed hq)
  · change p ∈ c.all ++ [q] ↔ ∃ t, update c.kin q (some k) p = some t ∧ t.stage ≠ .died
    rw [List.mem_append, List.mem_singleton, h.listed p]
    by_cases hp : p = q
    · rw [hp, update_self]
      simp [hl]
    · rw [update_of_ne hp]
      simp [hp]
  · rcases update_kin ht with ⟨hp, hk⟩ | ⟨-, ht'⟩
    · rcases update_kin hu with ⟨hr, -⟩ | ⟨-, hu'⟩
      · rw [hp, hr]
      · cases hk
        rw [hpid] at he
        exact absurd he.symm (h.pid_free hb hu' hul)
    · rcases update_kin hu with ⟨-, hk⟩ | ⟨-, hu'⟩
      · cases hk
        rw [hpid] at he
        exact absurd he (h.pid_free hb ht' htl)
      · exact h.distinct p r t u ht' hu' htl hul he
  · rcases update_kin ht with ⟨-, hk⟩ | ⟨-, ht'⟩
    · cases hk
      exact ⟨i, hpid, Bitmap.bit_set_self c.pids i true⟩
    · obtain ⟨j, hj, hbit⟩ := h.taken p t ht' htl
      exact ⟨j, hj, hset j hbit⟩
  · rcases update_kin ht with ⟨-, hk⟩ | ⟨-, ht'⟩
    · cases hk
      exact .inl hl
    · exact h.stages p t ht' hp
  · rcases update_kin ht with ⟨-, hk⟩ | ⟨-, ht'⟩
    · cases hk
      simp [hl]
    · exact h.processes p t ht' hp
  · obtain ⟨r, u, hu, hrest⟩ := h.init
    exact ⟨r, u, hother r u hu, hrest⟩
  · rcases update_kin ht with ⟨-, hk⟩ | ⟨-, ht'⟩
    · cases hk
      obtain ⟨r, u, hu, hrest⟩ := hpar hp
      exact ⟨r, u, hother r u hu, hrest⟩
    · obtain ⟨r, u, hu, hrest⟩ := h.parent p t ht' hp h1
      exact ⟨r, u, hother r u hu, hrest⟩
  · rcases update_kin ht with ⟨-, hk⟩ | ⟨-, ht'⟩
    · cases hk
      exact hroot hp
    · exact h.orphan p t ht' hp
  · rcases update_kin ht with ⟨-, hk⟩ | ⟨-, ht'⟩
    · cases hk
      exact hself
    · exact h.notSelf p t ht'
  · obtain ⟨t, ht, hp⟩ := h.main
    exact ⟨t, hother c.main t ht, hp⟩
  · rcases update_kin ht with ⟨-, hk⟩ | ⟨hne, ht'⟩
    · cases hk
      rw [hl] at hst
      cases hst
    · rw [exitOf_born_ne hne]
      exact h.exits p t ht' hst

/-- Pids, processes and the dead stay, and so do kernel threads; what is left to
show is where the parents are and what the log says. -/
theorem Family.reshape {f : Nat → Kin → Kin} {l' : List Event} (h : Family c l) (hpid : ∀ q k, (f q k).pid = k.pid)
    (hproc : ∀ q k, (f q k).process = k.process) (hdied : ∀ q k, c.kin q = some k → ((f q k).stage = .died ↔ k.stage = .died))
    (hkernel : ∀ q k, c.kin q = some k → k.process = false → f q k = k)
    (hinit : ∀ q k, c.kin q = some k → k.pid = 1 → k.parentPid = -1 → k.stage ≠ .hanging →
      (f q k).parentPid = -1 ∧ (f q k).stage ≠ .hanging)
    (hparent : ∀ q k, c.kin q = some k → k.process = true → k.pid ≠ 1 →
      ∃ r u, c.kin r = some u ∧ u.process = true ∧ u.pid = (f q k).parentPid ∧ (f r u).stage ≠ .hanging)
    (hself : ∀ q k, c.kin q = some k → (f q k).parentPid ≠ k.pid)
    (hexits : ∀ q k, c.kin q = some k → (f q k).stage = .hanging →
      ∃ v, exitOf q l' = some v ∧ (f q k).exitStatus = v.bmod 256) :
    Family { c with kin := fun q => (c.kin q).map (f q) } l' := by
  have hinv : ∀ {q t}, (c.kin q).map (f q) = some t → ∃ k, c.kin q = some k ∧ t = f q k := by
    intro q t ht
    obtain ⟨k, hk, hkt⟩ := Option.map_eq_some_iff.1 ht
    exact ⟨k, hk, hkt.symm⟩
  refine ⟨h.nodup, fun p => ?_, fun p r t u ht hu htl hul he => ?_, fun p t ht htl => ?_, fun p t ht hp => ?_, fun p t ht hp => ?_,
    ?_, fun p t ht hp h1 => ?_, fun p t ht hp => ?_, fun p t ht => ?_, ?_, fun p t ht hst => ?_⟩
  · refine (h.listed p).trans ⟨?_, ?_⟩
    · rintro ⟨k, hk, hkl⟩
      exact ⟨f p k, by simp [hk], fun hd => hkl ((hdied p k hk).1 hd)⟩
    · rintro ⟨t, ht, htl⟩
      obtain ⟨k, hk, rfl⟩ := hinv ht
      exact ⟨k, hk, fun hd => htl ((hdied p k hk).2 hd)⟩
  · obtain ⟨k, hk, rfl⟩ := hinv ht
    obtain ⟨k', hk', rfl⟩ := hinv hu
    refine h.distinct p r k k' hk hk' (fun hd => htl ((hdied p k hk).2 hd)) (fun hd => hul ((hdied r k' hk').2 hd)) ?_
    rw [hpid, hpid] at he
    exact he
  · obtain ⟨k, hk, rfl⟩ := hinv ht
    rw [hpid]
    exact h.taken p k hk fun hd => htl ((hdied p k hk).2 hd)
  · obtain ⟨k, hk, rfl⟩ := hinv ht
    rw [hproc] at hp
    rw [hkernel p k hk hp]
    exact h.stages p k hk hp
  · obtain ⟨k, hk, rfl⟩ := hinv ht
    rw [hproc] at hp
    exact fun hd => h.processes p k hk hp ((hdied p k hk).1 hd)
  · obtain ⟨q, k, hk, hk1, hp, hroot, hst⟩ := h.init
    obtain ⟨hroot', hst'⟩ := hinit q k hk hk1 hroot hst
    exact ⟨q, f q k, by simp [hk], by rw [hpid, hk1], by rw [hproc, hp], hroot', hst'⟩
  · obtain ⟨k, hk, rfl⟩ := hinv ht
    rw [hproc] at hp
    rw [hpid] at h1
    obtain ⟨r, u, hu, hup, hupid, hst⟩ := hparent p k hk hp h1
    exact ⟨r, f r u, by simp [hu], by rw [hproc, hup], by rw [hpid, hupid], hst⟩
  · obtain ⟨k, hk, rfl⟩ := hinv ht
    rw [hproc] at hp
    rw [hkernel p k hk hp]
    exact h.orphan p k hk hp
  · obtain ⟨k, hk, rfl⟩ := hinv ht
    rw [hpid]
    exact hself p k hk
  · obtain ⟨k, hk, hp⟩ := h.main
    exact ⟨f c.main k, by simp [hk], by rw [hproc, hp]⟩
  · obtain ⟨k, hk, rfl⟩ := hinv ht
    exact hexits p k hk hst

theorem update_eq_map {f : Nat → Option Kin} {g : Kin → Kin} (ht : f p = some t) :
    update f p (some (g t)) = fun q => (f q).map fun k => if q = p then g k else k := by
  funext q
  by_cases hq : q = p
  · simp [hq, ht]
  · simp [hq]

/-- `p` waits for a child. -/
theorem Family.sleep (h : Family c l) (ht : c.kin p = some t) (hp : t.process = true) :
    Family { c with kin := update c.kin p (some { t with stage := .waiting }) } l := by
  have hlive := h.processes p t ht hp
  rw [update_eq_map (g := fun k => { k with stage := .waiting }) ht]
  refine h.reshape (f := fun q k => if q = p then { k with stage := .waiting } else k) (fun q k => ?_) (fun q k => ?_)
    (fun q k hk => ?_) (fun q k hk hproc => ?_) (fun q k hk h1 hroot hst => ?_) (fun q k hk hproc h1 => ?_)
    (fun q k hk => ?_) fun q k hk hst => ?_
  · split
    · rfl
    · rfl
  · split
    · rfl
    · rfl
  · split
    · rename_i hq
      rw [hq, ht] at hk
      cases hk
      simp [hlive]
    · rfl
  · refine if_neg fun hq => ?_
    rw [hq, ht] at hk
    cases hk
    rw [hp] at hproc
    cases hproc
  · split
    · exact ⟨hroot, by simp⟩
    · exact ⟨hroot, hst⟩
  · obtain ⟨r, u, hu, hup, hupid, hst⟩ := h.parent q k hk hproc h1
    refine ⟨r, u, hu, hup, ?_, ?_⟩
    · split
      · exact hupid
      · exact hupid
    · split
      · simp
      · exact hst
  · split
    · exact h.notSelf q k hk
    · exact h.notSelf q k hk
  · split at hst
    · cases hst
    · rename_i hq
      rw [if_neg hq]
      exact h.exits q k hk hst

/-- The others keep their stage, or wake up. -/
theorem afterExit_stage {x : Stage} (hq : q ≠ p) (hx : x = .hanging ∨ x = .died) :
    (Clan.afterExit p t v parent q k).stage = x ↔ k.stage = x := by
  unfold Clan.afterExit
  simp only [hq, if_false]
  split
  · rename_i hw
    rw [hw.2]
    rcases hx with rfl | rfl
    · simp
    · simp
  · rfl

/-- `p` exits: its children go to init, which never exits itself. -/
theorem Family.exit (h : Family c l) (ht : c.kin p = some t) (hp : t.process = true) (hroot : t.parentPid ≠ -1) :
    Family (c.exit p t v parent) (.exited p v :: l) := by
  have hnot := h.not_init ht hp hroot
  have hlive := h.processes p t ht hp
  have hpos := h.pid_pos ht hlive
  -- a task with another pid is another task
  have hne : ∀ {r u}, c.kin r = some u → u.pid ≠ t.pid → r ≠ p := by
    intro r u hu hpid he
    rw [he, ht] at hu
    cases hu
    exact hpid rfl
  refine h.reshape (f := Clan.afterExit p t v parent) (fun _ _ => rfl) (fun _ _ => rfl) (fun q k hk => ?_)
    (fun q k hk hproc => ?_) (fun q k hk h1 hk1 hst => ?_) (fun q k hk hproc h1 => ?_) (fun q k hk => ?_)
    fun q k hk hst => ?_
  · by_cases hq : q = p
    · rw [hq, ht] at hk
      cases hk
      simp [hq, Clan.afterExit, hlive]
    · exact afterExit_stage hq (.inr rfl)
  · have hq : q ≠ p := by
      intro he
      rw [he, ht] at hk
      cases hk
      rw [hp] at hproc
      cases hproc
    have hpar : k.parentPid ≠ t.pid := by
      rw [h.orphan q k hk hproc]
      omega
    have hw : ¬ (q = parent ∧ k.stage = .waiting) := by
      rintro ⟨-, hw⟩
      rcases h.stages q k hk hproc with hs | hs
      · rw [hs] at hw
        cases hw
      · rw [hs] at hw
        cases hw
    simp [Clan.afterExit, hq, hpar, hw]
  · have hq : q ≠ p := hne hk (by rw [h1]; exact Ne.symm hnot)
    refine ⟨?_, fun hh => hst ((afterExit_stage hq (.inl rfl)).1 hh)⟩
    unfold Clan.afterExit
    simp only
    rw [if_neg (by omega), hk1]
  · by_cases hpar : k.parentPid = t.pid
    · obtain ⟨r, u, hu, hu1, hup, -, hst⟩ := h.init
      have hr : r ≠ p := hne hu (by rw [hu1]; exact Ne.symm hnot)
      exact ⟨r, u, hu, hup, by simp [Clan.afterExit, hpar, hu1], fun hh => hst ((afterExit_stage hr (.inl rfl)).1 hh)⟩
    · obtain ⟨r, u, hu, hup, hupid, hst⟩ := h.parent q k hk hproc h1
      have hr : r ≠ p := hne hu (by rw [hupid]; exact hpar)
      exact ⟨r, u, hu, hup, by simp [Clan.afterExit, hpar, hupid], fun hh => hst ((afterExit_stage hr (.inl rfl)).1 hh)⟩
  · by_cases hpar : k.parentPid = t.pid
    · have hkp : k.process = true := by
        cases hproc : k.process with
        | true => rfl
        | false =>
          have := h.orphan q k hk hproc
          omega
      simp only [Clan.afterExit, hpar, if_true]
      intro h1
      have := h.init_root hk (h.processes q k hk hkp) h1.symm
      omega
    · simp only [Clan.afterExit, hpar, if_false]
      exact h.notSelf q k hk
  · by_cases hq : q = p
    · exact ⟨v, by simp [exitOf, hq], by simp [Clan.afterExit, hq]⟩
    · obtain ⟨v', hv', he⟩ := h.exits q k hk ((afterExit_stage hq (.inl rfl)).1 hst)
      exact ⟨v', by simp [exitOf, Ne.symm hq, hv'], by simp [Clan.afterExit, hq, he]⟩

/-- `q` goes: it hangs, or it is a kernel thread, so it is nobody's parent. -/
theorem Family.bury {kept : Bool} {l' : List Event} (h : Family c l) (ht : c.kin q = some t) (hl : t.stage ≠ .died)
    (hst : t.stage = .hanging ∧ kept = false ∨ t.process = false ∧ kept = true)
    (hlog : ∀ r, r ≠ q → exitOf r l' = exitOf r l) : Family (c.bury q t kept) l' := by
  -- a PCB after the step: another one as it was, or the dead main thread
  have hinv : ∀ {r u}, (c.bury q t kept).kin r = some u →
      r ≠ q ∧ c.kin r = some u ∨ r = q ∧ u = { t with stage := .died } ∧ t.process = false := by
    intro r u hu
    rcases update_kin hu with ⟨hr, hk⟩ | ⟨hr, hu'⟩
    · rcases hst with ⟨-, rfl⟩ | ⟨hp, rfl⟩
      · cases hk
      · exact .inr ⟨hr, (Option.some.inj hk).symm, hp⟩
    · exact .inl ⟨hr, hu'⟩
  have hkeep : ∀ {r u}, c.kin r = some u → u.process = true → u.stage ≠ .hanging → (c.bury q t kept).kin r = some u := by
    intro r u hu hup hus
    have hr : r ≠ q := by
      intro he
      rw [he, ht] at hu
      cases hu
      rcases hst with ⟨hs, -⟩ | ⟨hs, -⟩
      · exact hus hs
      · rw [hs] at hup
        cases hup
    exact (update_of_ne hr _ _).trans hu
  refine ⟨h.nodup.erase q, fun p => ?_, fun p r u w hu hw hul hwl he => ?_, fun p u hu hul => ?_, fun p u hu hp => ?_,
    fun p u hu hp => ?_, ?_, fun p u hu hp h1 => ?_, fun p u hu hp => ?_, fun p u hu => ?_, ?_, fun p u hu hus => ?_⟩
  · change p ∈ c.all.erase q ↔ _
    rw [h.nodup.mem_erase_iff, h.listed p]
    constructor
    · rintro ⟨hne, u, hu, hul⟩
      exact ⟨u, (update_of_ne hne _ _).trans hu, hul⟩
    · rintro ⟨u, hu, hul⟩
      rcases hinv hu with ⟨hne, hu'⟩ | ⟨-, rfl, -⟩
      · exact ⟨hne, u, hu', hul⟩
      · exact absurd rfl hul
  · rcases hinv hu with ⟨-, hu'⟩ | ⟨-, rfl, -⟩
    · rcases hinv hw with ⟨-, hw'⟩ | ⟨-, rfl, -⟩
      · exact h.distinct p r u w hu' hw' hul hwl he
      · exact absurd rfl hwl
    · exact absurd rfl hul
  · rcases hinv hu with ⟨hne, hu'⟩ | ⟨-, rfl, -⟩
    · obtain ⟨j, hj, hbit⟩ := h.taken p u hu' hul
      have hpid : u.pid ≠ t.pid := fun he => hne (h.distinct p q u t hu' ht hul hl he)
      have hjt : j ≠ (t.pid - 1).toNat := by
        have := h.pid_pos ht hl
        omega
      refine ⟨j, hj, ?_⟩
      change (c.pids.set (t.pid - 1).toNat false).bit j = true
      rw [Bitmap.bit_set_ne _ _ hjt]
      exact hbit
    · exact absurd rfl hul
  · rcases hinv hu with ⟨-, hu'⟩ | ⟨-, rfl, -⟩
    · exact h.stages p u hu' hp
    · exact .inr rfl
  · rcases hinv hu with ⟨-, hu'⟩ | ⟨-, rfl, hk⟩
    · exact h.processes p u hu' hp
    · exact absurd (hk.symm.trans hp) (by simp)
  · obtain ⟨r, u, hu, hu1, hup, hroot, hus⟩ := h.init
    exact ⟨r, u, hkeep hu hup hus, hu1, hup, hroot, hus⟩
  · rcases hinv hu with ⟨-, hu'⟩ | ⟨-, rfl, hk⟩
    · obtain ⟨r, w, hw, hwp, hwpid, hws⟩ := h.parent p u hu' hp h1
      exact ⟨r, w, hkeep hw hwp hws, hwp, hwpid, hws⟩
    · exact absurd (hk.symm.trans hp) (by simp)
  · rcases hinv hu with ⟨-, hu'⟩ | ⟨-, rfl, -⟩
    · exact h.orphan p u hu' hp
    · exact h.orphan q t ht hp
  · rcases hinv hu with ⟨-, hu'⟩ | ⟨-, rfl, -⟩
    · exact h.notSelf p u hu'
    · exact h.notSelf q t ht
  · obtain ⟨u, hu, hp⟩ := h.main
    by_cases hm : c.main = q
    · rcases hst with ⟨hs, -⟩ | ⟨hs, rfl⟩
      · rw [hm, ht] at hu
        cases hu
        rcases h.stages q t ht hp with hl | hd
        · rw [hl] at hs
          cases hs
        · exact absurd hd hl
      · refine ⟨{ t with stage := .died }, ?_, hs⟩
        change update c.kin q _ c.main = _
        rw [hm, update_self]
        rfl
    · exact ⟨u, (update_of_ne hm _ _).trans hu, hp⟩
  · rcases hinv hu with ⟨hne, hu'⟩ | ⟨-, rfl, -⟩
    · rw [hlog p hne]
      exact h.exits p u hu' hus
    · cases hus

/-- Every step keeps the family. -/
theorem Family.step (h : Family c l) (hs : Clan.Step c p ev c') : Family c' (ev.toList ++ l) := by
  cases hs with
  | same => exact h
  | lose i => exact h.lose i
  | start i q hq hb =>
    refine h.birth hq hb rfl rfl ?_ (fun _ => rfl) fun hp => by cases hp
    simp only
    omega
  | fork i q t ht hp hl hq hb =>
    have hlive := h.processes p t ht hp
    refine h.birth hq hb rfl hl (h.pid_free hb ht hlive) (fun hf => ?_) fun _ => ⟨p, t, ht, hp, rfl, by simp [hl]⟩
    simp only [hp] at hf
    cases hf
  | exit v t tp parent ht hp hl hroot hall htp hpid => exact h.exit ht hp hroot
  | sleep t ht hp hl hno => exact h.sleep ht hp
  | reap q t u ht hu hpar hst =>
    refine h.bury hu (by simp [hst]) (.inl ⟨hst, rfl⟩) fun r hr => ?_
    simp [exitOf, Ne.symm hr]
  | noChild t ht hno =>
    refine { h with exits := fun p t ht hst => ?_ }
    obtain ⟨v, hv, he⟩ := h.exits p t ht hst
    exact ⟨v, by simpa [exitOf] using hv, he⟩
  | leave t ht hp hl => exact h.bury ht (by simp [hl]) (.inr ⟨hp, rfl⟩) fun _ _ => rfl

/-! ## Wake-ups -/

/-- Nobody waits who has a child that hangs. -/
def Clan.Awake (c : Clan) : Prop :=
  ∀ p t q u, c.kin p = some t → t.stage = .waiting → c.kin q = some u → u.stage = .hanging → u.parentPid ≠ t.pid

/-- `p` leaves no child that hangs to an init that waits, unless its exit wakes
init. -/
def Clan.Noticed (c : Clan) (p : Nat) : Prop := ∀ t i ti q u, c.kin p = some t → c.kin i = some ti → ti.pid = 1 →
  ti.stage = .waiting → c.kin q = some u → u.stage = .hanging → u.parentPid = t.pid → t.parentPid = 1

theorem Clan.Awake.exit (ha : c.Awake) (h : Family c l) (ht : c.kin p = some t) (hall : parent ∈ c.all)
    (htp : c.kin parent = some tp) (hpid : tp.pid = t.parentPid) (hn : c.Noticed p) : (c.exit p t v parent).Awake := by
  intro r w q k hr hw hq hk
  obtain ⟨w₀, hw₀, rfl⟩ := Option.map_eq_some_iff.1 hr
  obtain ⟨k₀, hk₀, rfl⟩ := Option.map_eq_some_iff.1 hq
  -- who waits now has waited before, and is not the parent
  have hrp : r ≠ p := by
    rintro rfl
    simp [Clan.afterExit] at hw
  have hwait : w₀.stage = .waiting ∧ r ≠ parent := by
    simp only [Clan.afterExit, hrp, if_false] at hw
    split at hw
    · cases hw
    · rename_i hno
      exact ⟨hw, fun he => hno ⟨he, hw⟩⟩
  have hparent : w₀.pid ≠ t.parentPid := by
    intro he
    obtain ⟨tp', htp', htl⟩ := (h.listed parent).1 hall
    rw [htp] at htp'
    cases htp'
    exact hwait.2 (h.distinct r parent w₀ tp hw₀ htp (by simp [hwait.1]) htl (by rw [he, hpid]))
  have hself : t.parentPid ≠ t.pid := h.notSelf p t ht
  by_cases hqp : q = p
  · rw [hqp, ht] at hk₀
    cases hk₀
    simp only [Clan.afterExit, hself, if_false]
    exact Ne.symm hparent
  · have hst : k₀.stage = .hanging := (afterExit_stage hqp (.inl rfl)).1 hk
    by_cases hpar : k₀.parentPid = t.pid
    · simp only [Clan.afterExit, hpar, if_true]
      intro h1
      have := hn t r w₀ q k₀ ht hw₀ h1.symm hwait.1 hk₀ hst hpar
      exact hparent (by rw [this, h1])
    · simp only [Clan.afterExit, hpar, if_false]
      exact ha r w₀ q k₀ hw₀ hwait.1 hk₀ hst

/-- Every step but such an exit keeps it so. -/
theorem Clan.Awake.step (ha : c.Awake) (h : Family c l) (hs : Clan.Step c p ev c')
    (hn : ∀ v, ev = some (.exited p v) → c.Noticed p) : c'.Awake := by
  -- one task is new or changed, and neither waits nor hangs
  have hupdate : ∀ {x : Nat} {o : Option Kin}, (∀ k, o = some k → k.stage ≠ .waiting ∧ k.stage ≠ .hanging) →
      ∀ p t q u, update c.kin x o p = some t → t.stage = .waiting → update c.kin x o q = some u → u.stage = .hanging →
        u.parentPid ≠ t.pid := by
    intro x o ho p t q u ht hw hu hh
    rcases update_kin ht with ⟨-, ht'⟩ | ⟨-, ht'⟩
    · exact absurd hw (ho t ht').1
    · rcases update_kin hu with ⟨-, hu'⟩ | ⟨-, hu'⟩
      · exact absurd hh (ho u hu').2
      · exact ha p t q u ht' hw hu' hh
  cases hs with
  | same => exact ha
  | lose i => exact ha
  | start i q hq hb =>
    refine hupdate fun k hk => ?_
    cases hk
    simp
  | fork i q t ht hp hl hq hb =>
    refine hupdate fun k hk => ?_
    cases hk
    simp [hl]
  | exit v t tp parent ht hp hl hroot hall htp hpid => exact ha.exit h ht hall htp hpid (hn v rfl)
  | sleep t ht hp hl hno =>
    intro r w q u hr hw hu hh
    rcases update_kin hu with ⟨-, hu'⟩ | ⟨-, hu'⟩
    · cases hu'
      cases hh
    · rcases update_kin hr with ⟨-, hw'⟩ | ⟨-, hw'⟩
      · cases hw'
        exact fun he => hno q u hu' he hh
      · exact ha r w q u hw' hw hu' hh
  | reap q t u ht hu hpar hst =>
    refine hupdate fun k hk => ?_
    cases hk
  | noChild t ht hno => exact ha
  | leave t ht hp hl =>
    refine hupdate fun k hk => ?_
    cases hk
    simp

end

end Enix.Thread
