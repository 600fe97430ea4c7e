import Enix.Memory.Fork

/-!
# `sys_exit`

* `releasePdes_spec`: `release_prog_resource` counts off every reference of the
  process once, tables and directory stay as they are.
* `sysExit_spec`: what the call does needs the books and the process itself
  (`Exiting`), not the rest of the invariant.
* `Sound.sysExit`: the space of the process is gone afterwards. Of its bitmap the
  last page stays, since `release_prog_resource` rounds the number of pages down.
-/
set_option autoImplicit false

namespace Enix.Memory
open Enix.Core Enix.Kernel Function

/-- The references of `S` have been counted off. -/
structure Released (L : Spaces) (s s' : Vm) (S : Set Ref) : Prop where
  same : Vm.SameRest s s'
  pools : Vm.SamePools s s'
  books : Books L (paid S (refs L s)) s' (entries L s)

/-- The entries of process `p` for the pages below `v` and the tables below `i`. -/
def passed (p i v : Nat) : Set Ref := fun r =>
  match r with
  | .pte q u => q = p ∧ u < v
  | .pde q j => q = p ∧ j < i
  | .kernel _ => False

/-- The records are of the same process, which may have been adopted. -/
structure Like (t u : TaskStruct) : Prop where
  pgdir : u.pgdir = t.pgdir
  userprogVaddr : u.userprogVaddr = t.userprogVaddr
  live : u.live = t.live
  pid : u.pid = t.pid
  parentPid : u.parentPid = t.parentPid ∨ u.parentPid = 1

/-- The records are of the same space. -/
structure SameSpace (t u : TaskStruct) : Prop where
  pgdir : u.pgdir = t.pgdir
  userprogVaddr : u.userprogVaddr = t.userprogVaddr
  live : u.live = t.live

/-- The tasks but `p` are of the same spaces. -/
def SameTasks (p : Nat) (s s' : Vm) : Prop := ∀ q, q ≠ p → Option.Rel Like (s.tasks q) (s'.tasks q)

/-- Process `p` with record `t` has exited: its space is gone, and of its bitmap
all pages but the last. -/
structure HasExited (L : Spaces) (s s' : Vm) (p : Nat) (t : TaskStruct) : Prop extends Vm.SamePools s s' where
  tasks : SameTasks p s s'
  record : ∃ u, s'.tasks p = some u ∧ u.pgdir = t.pgdir ∧ u.status = .hanging ∧
    (u.parentPid = t.parentPid ∨ t.parentPid = t.pid)
  threadAllList : s'.threadAllList = s.threadAllList
  kernel : ∀ u, (∀ k, k < userBtmpLen / 4096 → u ≠ t.userprogVaddr.bits + k) →
    entries (update L p none) s' (.kernel u) = entries L s (.kernel u)
  lost : ∀ k, k < userBtmpLen / 4096 → entries (update L p none) s' (.kernel (t.userprogVaddr.bits + k)) = none
  page : ∀ q v, q ≠ p → entries (update L p none) s' (.pte q v) = entries L s (.pte q v)
  phys : s'.phys = s.phys
  cur : s'.cur = s.cur
  cr3 : s'.cr3 = s.cr3

/-- The books are even, and the running process with record `t` has its directory
and its bitmap. -/
structure Exiting (L : Spaces) (s : Vm) (t : TaskStruct) : Prop where
  frames : Frames L quits s
  kernelBits : KernelBits s
  record : s.tasks s.cur = some t
  space : L s.cur = some s.cr3
  dir : kHeapStart ≤ t.pgdir ∧ refs L s (.kernel t.pgdir) = some s.cr3
  user : UserSpace L s s.cur t.userprogVaddr

section
variable {L : Spaces} {s s₁ s' : Vm} {t tc : TaskStruct} {r : Ref} {S T : Set Ref}
  {c f g i j k n p q v w d : Nat}

theorem Released.start (h : Frames L quits s) (p : Nat) : Released L s s (passed p 0 0) := by
  refine ⟨Vm.SameRest.refl s, Vm.SamePools.refl s, ?_⟩
  have he : paid (passed p 0 0) (refs L s) = quits := by
    rw [← paid_empty (refs L s)]
    refine paid_congr fun r f _ => ⟨fun hr => ?_, fun hr => hr.elim⟩
    cases r with
    | kernel u => exact hr.elim
    | pde q j => exact absurd hr.2 (Nat.not_lt_zero j)
    | pte q u => exact absurd hr.2 (Nat.not_lt_zero u)
  rw [he]
  exact h

theorem Released.congr (h : Released L s s' S) (hST : ∀ r f, refs L s r = some f → (r ∈ S ↔ r ∈ T)) :
    Released L s s' T :=
  ⟨h.same, h.pools, paid_congr hST ▸ h.books⟩

/-- A frame that nothing in `S` refers to is counted off. -/
theorem Released.one (h : Released L s s' S) (hr : refs L s r = some f) (hf : s.Pooled f)
    (hS : ∀ r' ∈ S, refs L s r' ≠ some f) :
    runs (fun _ => False) (freeAPhyPage f) (fun _ s₁ => Released L s s₁ (insert r S)) s' := by
  have hp : s'.Pooled f := by rw [h.pools.pooled]; exact hf
  have hpos := h.books.bal.counted h.books.ok.fin hp hr (le_of_eq (paid_eq_zero hS).symm)
  rw [runs_ok (freeAPhyPage_run h.books hp hpos)]
  refine ⟨?_, h.pools.trans (Vm.SamePools.uncount s' f), ?_⟩
  · exact h.same.trans (Vm.SameRest.uncount s' f)
  · rw [paid_insert hr hS]
    exact h.books.uncount hp hpos

theorem Released.pde (h : Released L s s' S) (v : Nat) : s'.pde v = s.pde v := by
  unfold Vm.pde
  rw [h.same.phys, h.same.cr3]

theorem Released.pte (h : Released L s s' S) (v : Nat) : s'.pte v = s.pte v := by
  unfold Vm.pte
  rw [h.pde, h.same.phys, h.same.kernelPte]

/-- The pages under a table that is there. -/
theorem releasePtes_spec (hs : Frames L quits s) (hL : L p = some s.cr3) (hi : i < 768)
    (hp : present (pdeAt s.phys s.cr3 i) = true) : ∀ n v s', 1024 * i ≤ v → v + n ≤ 1024 * (i + 1) →
      Released L s s' (passed p i v) →
      runs (fun _ => False) (releasePtes v n) (fun _ s₁ => Released L s s₁ (passed p i (v + n))) s' := by
  intro n
  induction n with
  | zero =>
    intro v s' _ _ h
    exact h
  | succ n ih =>
    intro v s' hv hn h
    have hvk : v < kernelBase := by unfold kernelBase; omega
    have hdiv : v / 1024 = i := by omega
    have hpde : present (s.pde v) = true := by rw [pde_user hvk, hdiv]; exact hp
    unfold releasePtes
    rw [runs_read_bind, h.pde, runs_bind_ok (guard_run hpde _ s'), runs_read_bind, h.pte]
    refine runs_seq (P := fun _ s₁ => Released L s s₁ (passed p i (v + 1))) ?_ fun _ s₁ h₁ => ?_
    · refine runs_when (fun hpte => ?_) fun hpte => ?_
      · have hent := (entries_pte_user hL hvk).2 ⟨hpde, hpte, rfl⟩
        have hr : refs L s (.pte p v) = some (s.pte v / 4096) := refs_eq_some.2 ⟨_, hent, rfl⟩
        refine runs_post (h.one hr (hs.ok.home _ _ hr) fun r hrS hrf => ?_) fun _ s₁ h₁ => h₁.congr fun r f _ => ?_
        · obtain ⟨q, rfl⟩ := hs.ok.page_only hs.pooled_base hr hrf
          exact absurd hrS.2 (Nat.lt_irrefl v)
        · constructor
          · rintro (rfl | hr')
            · exact ⟨rfl, Nat.lt_succ_self v⟩
            · cases r with
              | kernel u => exact hr'
              | pde q j => exact hr'
              | pte q u => exact ⟨hr'.1, Nat.lt_succ_of_lt hr'.2⟩
          · intro hr'
            cases r with
            | kernel u => exact .inr hr'
            | pde q j => exact .inr hr'
            | pte q u =>
              obtain ⟨rfl, hu⟩ := hr'
              by_cases huv : u = v
              · exact .inl (by rw [huv])
              · exact .inr ⟨rfl, by omega⟩
      · refine h.congr fun r f hrf => ?_
        cases r with
        | kernel u => exact Iff.rfl
        | pde q j => exact Iff.rfl
        | pte q u =>
          refine and_congr_right fun hq => ?_
          have huv : u ≠ v := by
            rintro rfl
            subst hq
            obtain ⟨w, hw, -⟩ := refs_eq_some.1 hrf
            exact hpte ((entries_pte_user hL hvk).1 hw).2.1 |>.elim
          omega
    · have hr := ih (v + 1) s₁ (by omega) (by omega) h₁
      rwa [show v + 1 + n = v + (n + 1) by omega] at hr

/-- All tables of a process, and what is under them. -/
theorem releasePdes_spec (hs : Frames L quits s) (hL : L p = some s.cr3) {pgdir : Nat} (hd : kHeapStart ≤ pgdir)
    (hr : refs L s (.kernel pgdir) = some s.cr3) : ∀ n i s', i + n ≤ 768 →
      Released L s s' (passed p i (1024 * i)) →
      runs (fun _ => False) (releasePdes pgdir i n)
        (fun _ s₁ => Released L s s₁ (passed p (i + n) (1024 * (i + n)))) s' := by
  intro n
  induction n with
  | zero =>
    intro i s' _ h
    exact h
  | succ n ih =>
    intro i s' hi h
    have hload : loadWord (4096 * pgdir + 4 * i) s' = .ok (pdeAt s.phys s.cr3 i, s') := by
      have hw : s'.walk pgdir = some s.cr3 := by
        rw [walk_kernel (L := L) (heap_kernel hd)]
        rw [refs_kernel] at hr ⊢
        rwa [h.same.kernelPte]
      unfold loadWord
      rw [bind_ok (read_run _ s'), show (4096 * pgdir + 4 * i) / 4096 = pgdir by omega, hw, get_some,
        bind_ok (pure_run _ s'), read_run, h.same.phys, show (4096 * pgdir + 4 * i) % 4096 = 4 * i by omega]
      rfl
    unfold releasePdes
    rw [runs_bind_ok hload]
    refine runs_seq (P := fun _ s₁ => Released L s s₁ (passed p (i + 1) (1024 * (i + 1)))) ?_ fun _ s₁ h₁ => ?_
    · refine runs_when (fun hp => ?_) fun hp => ?_
      · refine runs_seq (releasePtes_spec hs hL (by omega : i < 768) hp 1024 (1024 * i) s' (le_refl _) (by omega) h) ?_
        intro _ s₁ h₁
        have hent : entries L s (.pde p i) = some (pdeAt s.phys s.cr3 i) := (entries_pde hL).2 ⟨by omega, hp, rfl⟩
        have hri : refs L s (.pde p i) = some (pdeAt s.phys s.cr3 i / 4096) := refs_eq_some.2 ⟨_, hent, rfl⟩
        refine runs_post (h₁.one hri (.inl (hs.ok.home _ _ hri)) fun r hrS hrf => ?_) fun _ s₂ h₂ => h₂.congr fun r f _ => ?_
        · cases hs.ok.table_only hs.kernel_base hri hrf
          exact absurd hrS.2 (Nat.lt_irrefl i)
        · constructor
          · rintro (rfl | hr')
            · exact ⟨rfl, Nat.lt_succ_self i⟩
            · cases r with
              | kernel u => exact hr'
              | pde q j => exact ⟨hr'.1, Nat.lt_succ_of_lt hr'.2⟩
              | pte q u => exact ⟨hr'.1, by have := hr'.2; omega⟩
          · intro hr'
            cases r with
            | kernel u => exact .inr hr'
            | pde q j =>
              obtain ⟨rfl, hj⟩ := hr'
              by_cases hji : j = i
              · exact .inl (by rw [hji])
              · exact .inr ⟨rfl, by omega⟩
            | pte q u => exact .inr ⟨hr'.1, by have := hr'.2; omega⟩
      · refine h.congr fun r f hrf => ?_
        have hno : ∀ w, entries L s (.pde p i) ≠ some w := fun w hw => hp ((entries_pde hL).1 hw).2.1
        cases r with
        | kernel u => exact Iff.rfl
        | pde q j =>
          refine and_congr_right fun hq => ?_
          have hji : j ≠ i := by
            rintro rfl
            subst hq
            obtain ⟨w, hw, -⟩ := refs_eq_some.1 hrf
            exact hno w hw
          omega
        | pte q u =>
          refine and_congr_right fun hq => ?_
          have hui : u / 1024 ≠ i := by
            rintro rfl
            subst hq
            obtain ⟨w, hw, -⟩ := refs_eq_some.1 hrf
            obtain ⟨e, -, -, -, he⟩ := pde_of_pte hw
            exact hno _ he
          omega
    · have hr' := ih (i + 1) s₁ (by omega) h₁
      rwa [show i + 1 + n = i + (n + 1) by omega] at hr'

/-! ## A space that goes -/

open Classical in
theorem entries_drop (hs : Vm.SameRest s s') (r : Ref) : entries (update L p none) s' r =
    if r ∈ passed p 768 kernelBase then none else entries L s r := by
  rw [entries_rest hs]
  cases r with
  | kernel u => exact (if_neg fun hr => hr).symm
  | pde q i =>
    by_cases hq : q = p
    · subst hq
      rw [(entries_dead (v := 0) (update_self ..)).1]
      split
      · rfl
      · rename_i hr
        have hi : ¬ i < 768 := fun hi => hr ⟨rfl, hi⟩
        simp only [entries, if_neg hi, Option.bind_fun_none]
    · rw [if_neg fun hr => hq hr.1]
      simp only [entries, update_of_ne hq]
  | pte q u =>
    by_cases hq : q = p
    · subst hq
      rw [(entries_dead (i := 0) (update_self ..)).2]
      split
      · rfl
      · rename_i hr
        have hu : ¬ u < kernelBase := fun hu => hr ⟨rfl, hu⟩
        simp only [entries, hu, false_and, if_false, Option.bind_fun_none]
    · rw [if_neg fun hr => hq hr.1]
      simp only [entries, update_of_ne hq]

/-- The entries of the other spaces stay. -/
theorem entries_drop_of_ne (hs : Vm.SameRest s s') (hr : r ∉ passed p 768 kernelBase) :
    entries (update L p none) s' r = entries L s r := by
  rw [entries_drop hs]
  exact if_neg hr

theorem entries_drop_sub (hs : Vm.SameRest s s') (hr : entries (update L p none) s' r = some w) :
    entries L s r = some w := by
  rw [entries_drop hs] at hr
  split at hr
  · cases hr
  · exact hr

/-- What was counted off is dropped. -/
theorem Released.drop (h : Released L s s' (passed p 768 kernelBase)) : Frames (update L p none) quits s' := by
  classical
  have hb := h.books
  have href : ∀ r, refsOf (entries (update L p none) s') r =
      if r ∈ passed p 768 kernelBase then none else refs L s r := by
    intro r
    unfold refs refsOf
    rw [entries_drop h.same]
    split
    · rfl
    · rfl
  have hsub : ∀ r f, refsOf (entries (update L p none) s') r = some f → refs L s r = some f := by
    intro r f hr
    rw [href] at hr
    split at hr
    · cases hr
    · exact hr
  refine ⟨hb.base, hb.split, hb.top, hb.ok.drop hsub (fun q d v _ hk => ?_) (fun q d hq => ?_), ?_, hb.bits, hb.cell,
    fun r w hw => hb.flags r w (entries_drop_sub h.same hw)⟩
  · rw [href]
    exact (if_neg fun hr => hr).trans hk
  · by_cases hqp : q = p
    · rw [hqp, update_self] at hq
      cases hq
    · rwa [update_of_ne hqp] at hq
  · rw [funext href]
    refine hb.bal.drop hb.ok.fin fun r r' f hr hr' hf hf' => ?_
    have hbase : memBase ≤ f := by
      have hh := hb.ok.home r f hf
      cases r with
      | kernel u => exact hr.elim
      | pde q i => exact hb.kernel_base f hh
      | pte q u => exact hb.pooled_base f hh
    rcases hb.ok.shared r r' f hf hf' hbase with he | ⟨q, q', v, rfl, rfl⟩
    · exact he
    · rw [hr.1, hr'.1]

/-! ## The tasks -/

theorem Like.refl (t : TaskStruct) : Like t t := ⟨rfl, rfl, rfl, rfl, .inl rfl⟩

theorem Like.space (h : Like t tc) : SameSpace t tc := ⟨h.pgdir, h.userprogVaddr, h.live⟩

theorem SameSpace.part (h : SameSpace t tc) (p : Nat) (a : Part) : tc.part p a = t.part p a := by
  cases a with
  | pcb => rfl
  | dir => simp only [TaskStruct.part, h.pgdir]
  | map k => simp only [TaskStruct.part, h.live, h.userprogVaddr]

theorem rel_mono {R S : TaskStruct → TaskStruct → Prop} {a b : Option TaskStruct} (h : Option.Rel R a b)
    (hRS : ∀ t u, R t u → S t u) : Option.Rel S a b := by
  cases h with
  | none => exact .none
  | some h => exact .some (hRS _ _ h)

theorem rel_before {R : TaskStruct → TaskStruct → Prop} {a b : Option TaskStruct} (h : Option.Rel R a b)
    (hb : b = some tc) : ∃ t, a = some t ∧ R t tc := by
  cases h with
  | none => cases hb
  | some h =>
    cases hb
    exact ⟨_, rfl, h⟩

theorem rel_after {R : TaskStruct → TaskStruct → Prop} {a b : Option TaskStruct} (h : Option.Rel R a b)
    (ha : a = some t) : ∃ u, b = some u ∧ R t u := by
  cases h with
  | none => cases ha
  | some h =>
    cases ha
    exact ⟨_, rfl, h⟩

theorem part_space (h : Option.Rel SameSpace (s.tasks p) (s'.tasks p)) (a : Part) : s'.part p a = s.part p a := by
  unfold Vm.part
  generalize s.tasks p = b at *
  generalize s'.tasks p = c at *
  cases h with
  | none => rfl
  | some hl => exact hl.part p a

theorem part_like (h : Option.Rel Like (s.tasks p) (s'.tasks p)) (a : Part) : s'.part p a = s.part p a :=
  part_space (rel_mono h fun _ _ hl => hl.space) a

theorem like_before (h : Option.Rel Like (s.tasks p) (s'.tasks p)) (ht : s'.tasks p = some tc) :
    ∃ t, s.tasks p = some t ∧ Like t tc := rel_before h ht

theorem alive_drop (h : Set.Finite {q | L q ≠ none}) (p : Nat) : alive (update L p none) ≤ alive L := by
  refine Set.ncard_le_ncard (fun q hq => ?_) h
  have hq' : update L p none q ≠ none := hq
  by_cases hqp : q = p
  · rw [hqp, update_self] at hq'
    exact absurd rfl hq'
  · rwa [update_of_ne hqp] at hq'

/-- The invariant with one live process less. -/
theorem Sound.dropProcess (h : Sound L s) (ht : s.tasks p = some t) (hl : t.live = true)
    (hf : Frames (update L p none) quits s') (hk : KernelBits s')
    (hroom : s'.kernelVaddr.size = s.kernelVaddr.size) (hx : HasExited L s s' p t) (hcur : s.cur = p) :
    Sound (update L p none) s' := by
  obtain ⟨u, hu, hud, hus, -⟩ := hx.record
  have hdead : u.live = false := by
    unfold TaskStruct.live
    rw [hus]
    simp
  -- pages that processes own later are those they owned, less the bitmap of `p`
  have hpart : ∀ q a v, s'.part q a = some v → s.part q a = some v ∧
      ∀ k, k < userBtmpLen / 4096 → v ≠ t.userprogVaddr.bits + k := by
    intro q a v hq
    have hold : s.part q a = some v ∧ (q = p → ∀ k, a ≠ .map k) := by
      by_cases hqp : q = p
      · subst hqp
        unfold Vm.part at hq ⊢
        rw [hu] at hq
        rw [ht]
        cases a with
        | pcb => exact ⟨hq, fun _ k he => by cases he⟩
        | dir =>
          refine ⟨?_, fun _ k he => by cases he⟩
          simp only [Option.bind_some, TaskStruct.part, hud] at hq ⊢
          exact hq
        | map k =>
          simp only [Option.bind_some, TaskStruct.part, hdead] at hq
          simp at hq
      · rw [part_like (hx.tasks q hqp)] at hq
        exact ⟨hq, fun he => absurd he hqp⟩
    refine ⟨hold.1, fun k hk hv => ?_⟩
    have hk' : k < bitmapPgCnt := lt_of_lt_of_le hk (by decide)
    obtain ⟨rfl, rfl⟩ := h.own q p a _ v hold.1 (by rw [hv]; exact part_map ht hl hk')
    exact hold.2 rfl k rfl
  have hker : ∀ q a v f, s'.part q a = some v → refs L s (.kernel v) = some f →
      refs (update L p none) s' (.kernel v) = some f := by
    intro q a v f hq hr
    unfold refs refsOf at hr ⊢
    rwa [hx.kernel v (hpart q a v hq).2]
  have hwas : ∀ q u', s'.tasks q = some u' → u'.live = true → q ≠ p := by
    rintro q u' hu' hl' rfl
    rw [hu] at hu'
    cases hu'
    rw [hdead] at hl'
    cases hl'
  have hbase : ∀ k, k < userBtmpLen / 4096 → kernelBase ≠ t.userprogVaddr.bits + k := by
    intro k hk he
    have hh := (h.user p t ht hl).heap
    unfold kHeapStart at hh
    unfold kernelBase at he
    omega
  refine ⟨hf, lt_of_le_of_lt (alive_drop h.frames.ok.finite_live p) h.few, hk, by rw [hroom]; exact h.room, ?_, ?_,
    fun q a v hq => ?_, fun u' hu' => ?_, fun q q' a b v hq hq' => ?_, fun q u' hu' hl' => ?_, ?_, fun u' hu' hl' => ?_⟩
  · have htop : entries L s (.kernel kernelBase) = some (s.kernelPte kernelBase) := entries_kernel.2 ⟨h.top, rfl⟩
    rw [← hx.kernel _ hbase, entries_kernel] at htop
    exact htop.1
  · funext q
    by_cases hqp : q = p
    · rw [hqp, update_self]
      unfold Vm.spaces
      rw [hu]
      simp [hdead]
    · rw [update_of_ne hqp, ← h.live]
      have hrel := hx.tasks q hqp
      unfold Vm.spaces
      cases htq : s.tasks q with
      | none =>
        rw [htq] at hrel
        cases htq' : s'.tasks q with
        | none => rfl
        | some u' => rw [htq'] at hrel; cases hrel
      | some tq =>
        rw [htq] at hrel
        cases htq' : s'.tasks q with
        | none => rw [htq'] at hrel; cases hrel
        | some u' =>
          rw [htq'] at hrel
          cases hrel with
          | some hlike =>
            simp only [Option.bind_some, hlike.live, hlike.pgdir]
            by_cases hlq : tq.live = true
            · rw [if_pos hlq, if_pos hlq]
              obtain ⟨-, f, hf'⟩ := h.live_ref htq hlq (part_dir htq (TaskStruct.live_pgdir hlq))
              have hp' : s'.part q .dir = some tq.pgdir := by
                rw [part_like (hx.tasks q hqp)]
                exact part_dir htq (TaskStruct.live_pgdir hlq)
              rw [(refs_kernel.1 hf').2, (refs_kernel.1 (hker q _ _ f hp' hf')).2]
            · rw [if_neg hlq, if_neg hlq]
  · rcases h.mapped q a v (hpart q a v hq).1 with hm | ⟨hv, hpr⟩
    · exact .inl hm
    · exact .inr ⟨hv, (refs_kernel.1 (hker q a v _ hq (refs_kernel.2 ⟨hpr, rfl⟩))).1⟩
  · by_cases hmp : mainThread = p
    · rw [hmp] at hu'
      rw [hu] at hu'
      cases hu'
      rw [hud]
      exact h.main t (by rw [hmp]; exact ht)
    · obtain ⟨t', ht', hlike⟩ := like_before (hx.tasks _ hmp) hu'
      rw [hlike.pgdir]
      exact h.main t' ht'
  · exact h.own q q' a b v (hpart q a v hq).1 (hpart q' b v hq').1
  · have hqp := hwas q u' hu' hl'
    obtain ⟨tq, htq, hlike⟩ := like_before (hx.tasks q hqp) hu'
    rw [hlike.live] at hl'
    rw [hlike.userprogVaddr]
    have hq := h.user q tq htq hl'
    refine hq.congr (fun k f hk hr => ?_) fun v => by rw [hx.page q v hqp]
    have hp' := part_map htq hl' (hq.pages_lt hk)
    refine ⟨hker q _ _ f (by rw [part_like (hx.tasks q hqp)]; exact hp') hr, by rw [hx.phys], fun q' hq' => ?_⟩
    by_cases hq'p : q' = p
    · rw [hq'p, update_self] at hq'
      cases hq'
    · rw [update_of_ne hq'p] at hq'
      obtain ⟨-, hc⟩ := h.part_frame hp' hr hq'
      cases hc
  · have hsub : ∀ q v w, entries (update L p none) s' (.pte q v) = some w → entries L s (.pte q v) = some w := by
      intro q v w hw
      by_cases hqp : q = p
      · rw [hqp, (entries_dead (i := 0) (update_self ..)).2] at hw
        cases hw
      · rwa [hx.page q v hqp] at hw
    intro q v w hw hwr r hr
    obtain ⟨q', rfl⟩ := hf.ok.page_only hf.pooled_base (refs_eq_some.2 ⟨w, hw, rfl⟩) hr
    obtain ⟨w', hw', hwf⟩ := refs_eq_some.1 hr
    exact h.cow q v w (hsub q v w hw) hwr _ (refs_eq_some.2 ⟨w', hsub q' v w' hw', hwf⟩)
  · rw [hx.cur, hcur] at hu'
    exact absurd rfl (hwas p u' hu' hl')

theorem Like.trans {t₁ t₂ t₃ : TaskStruct} (h₁ : Like t₁ t₂) (h₂ : Like t₂ t₃) : Like t₁ t₃ := by
  refine ⟨h₂.pgdir.trans h₁.pgdir, h₂.userprogVaddr.trans h₁.userprogVaddr, h₂.live.trans h₁.live,
    h₂.pid.trans h₁.pid, ?_⟩
  rcases h₂.parentPid with h | h
  · rw [h]
    exact h₁.parentPid
  · exact .inr h

theorem rel_trans {a b c : Option TaskStruct} (h₁ : Option.Rel Like a b) (h₂ : Option.Rel Like b c) :
    Option.Rel Like a c := by
  cases h₁ with
  | none => exact h₂
  | some h =>
    cases h₂ with
    | some h' => exact .some (h.trans h')

theorem rel_refl (a : Option TaskStruct) : Option.Rel Like a a := by
  cases a with
  | none => exact .none
  | some t => exact .some (Like.refl t)

/-- Records may change as long as they are of the same spaces. -/
theorem Sound.sameSpaces (h : Sound L s) {T : Nat → Option TaskStruct} (hT : ∀ q, Option.Rel SameSpace (s.tasks q) (T q)) :
    Sound L { s with tasks := T } := by
  have hent : entries L { s with tasks := T } = entries L s := entries_congr rfl rfl
  have hrefs : refs L { s with tasks := T } = refs L s := refs_congr rfl rfl
  have hpart : ∀ q a, ({ s with tasks := T } : Vm).part q a = s.part q a := fun q a => part_space (hT q) a
  refine ⟨?_, h.few, ⟨h.kernelBits.set, h.kernelBits.mapped⟩, h.room, h.top, ?_, fun q a v hq => ?_, fun u hu => ?_,
    fun q q' a b v hq hq' => ?_, fun q u hu hl => ?_, ?_, fun u hu hl => ?_⟩
  · unfold Frames
    rw [hent]
    exact h.frames.of_eq rfl rfl rfl
  · funext q
    rw [← h.live]
    have hrel := hT q
    unfold Vm.spaces
    show (T q).bind _ = (s.tasks q).bind _
    generalize s.tasks q = b at *
    generalize T q = c at *
    cases hrel with
    | none => rfl
    | some hl => simp only [Option.bind_some, hl.live, hl.pgdir]
  · rw [hpart] at hq
    exact h.mapped q a v hq
  · obtain ⟨t', ht', hlike⟩ := rel_before (hT _) hu
    rw [hlike.pgdir]
    exact h.main t' ht'
  · rw [hpart] at hq hq'
    exact h.own q q' a b v hq hq'
  · obtain ⟨tq, htq, hlike⟩ := rel_before (hT _) hu
    rw [hlike.live] at hl
    rw [hlike.userprogVaddr]
    have hq := h.user q tq htq hl
    refine hq.congr (fun k f hk hf => ⟨by rw [hrefs]; exact hf, rfl, fun q' hq' => ?_⟩) fun v => by rw [hent]
    obtain ⟨-, hc⟩ := h.part_frame (part_map htq hl (hq.pages_lt hk)) hf hq'
    cases hc
  · unfold Cow
    rw [hent, hrefs]
    exact h.cow
  · obtain ⟨tq, htq, hlike⟩ := rel_before (hT _) hu
    rw [hlike.live] at hl
    exact h.inUse tq htq hl

theorem Sound.alike (h : Sound L s) {T : Nat → Option TaskStruct} (hT : ∀ q, Option.Rel Like (s.tasks q) (T q)) :
    Sound L { s with tasks := T } := h.sameSpaces fun q => rel_mono (hT q) fun _ _ hl => hl.space

/-! ## `sys_exit` -/

/-- `init_adopt_achild` changes no space. -/
theorem adopt_like (s : Vm) (pid : Int) (q : Nat) : Option.Rel Like (s.tasks q)
    ((s.tasks q).map fun t => if t.parentPid = pid then { t with parentPid := 1 } else t) := by
  cases s.tasks q with
  | none => exact .none
  | some t =>
    refine .some ?_
    simp only
    split
    · exact ⟨rfl, rfl, rfl, rfl, .inr rfl⟩
    · exact Like.refl t

/-- The same processes have the same pids. -/
theorem pid2thread_like {T : Nat → Option TaskStruct} (hT : ∀ q, Option.Rel Like (s.tasks q) (T q)) (ht : s'.tasks = T)
    (hl : s'.threadAllList = s.threadAllList) (pid : Int) : s'.pid2thread pid = s.pid2thread pid := by
  have hpid : ∀ q, (s'.tasks q).map (·.pid) = (s.tasks q).map (·.pid) := by
    intro q
    have hrel := hT q
    rw [ht]
    generalize s.tasks q = a at *
    generalize T q = b at *
    cases hrel with
    | none => rfl
    | some hlike => exact congrArg some hlike.pid
  unfold Vm.pid2thread
  rw [hl]
  simp only [hpid]

/-- Who has a pid has a record. -/
theorem pid2thread_record {pid : Int} (h : s.pid2thread pid = some q) : ∃ t, s.tasks q = some t ∧ t.pid = pid := by
  have hq := List.find?_some h
  simp only [decide_eq_true_eq] at hq
  cases ht : s.tasks q with
  | none =>
    rw [ht] at hq
    cases hq
  | some t =>
    rw [ht] at hq
    exact ⟨t, rfl, Option.some.inj hq⟩

theorem Sound.exiting (h : Sound L s) (ht : s.tasks s.cur = some t) (hl : t.live = true) : Exiting L s t := by
  have hL := h.inUse t ht hl
  obtain ⟨t', ht', -, hdir⟩ := h.dir_ref hL
  rw [ht] at ht'
  cases ht'
  exact ⟨h.frames, h.kernelBits, ht, hL, hdir, h.user _ t ht hl⟩

/-- Other records change, and of this one nothing that the call looks at before
it has released the process. -/
theorem Exiting.retask {T : Nat → Option TaskStruct} (h : Exiting L s t) (hT : T s.cur = some tc) (hlike : Like t tc) :
    Exiting L { s with tasks := T } tc := by
  have hent : entries L { s with tasks := T } = entries L s := entries_congr rfl rfl
  have hrefs : refs L { s with tasks := T } = refs L s := by
    unfold refs
    rw [hent]
  refine ⟨?_, ⟨h.kernelBits.set, h.kernelBits.mapped⟩, hT, h.space, by rw [hlike.pgdir, hrefs]; exact h.dir, ?_⟩
  · unfold Frames
    rw [hent]
    exact h.frames.of_eq rfl rfl rfl
  · rw [hlike.userprogVaddr]
    refine h.user.congr (fun k f hk hf => ⟨by rw [hrefs]; exact hf, rfl, fun q hq => ?_⟩) fun v => by rw [hent]
    obtain ⟨g, hg, hgd⟩ := h.user.pages k (by omega)
    rw [hf] at hg
    cases hg
    exact hgd q hq

/-- The first loop of `release_prog_resource`: the space of the process is gone. -/
theorem releaseSpace_spec (h : Frames L quits s) (hk : KernelBits s) (hL : L p = some s.cr3) {pgdir : Nat}
    (hd : kHeapStart ≤ pgdir ∧ refs L s (.kernel pgdir) = some s.cr3) :
    runs (fun _ => False) (releasePdes pgdir 0 768) (fun _ s' => Vm.SameRest s s' ∧ Vm.SamePools s s' ∧
      Frames (update L p none) quits s' ∧ KernelBits s') s := by
  refine runs_post (releasePdes_spec h hL hd.1 hd.2 768 0 s (by omega) (Released.start h p)) ?_
  intro _ s₁ h₁
  have hf := Released.drop (h₁.congr (T := passed p 768 kernelBase) fun r f _ => by
    rw [show 0 + 768 = 768 from rfl, show 1024 * 768 = kernelBase from rfl])
  exact ⟨h₁.same, h₁.pools, hf, by rw [h₁.same.kernelPte, h₁.same.kernelVaddr]; exact hk.set,
    by rw [h₁.same.kernelPte, h₁.same.kernelVaddr]; exact hk.mapped⟩

/-- `release_prog_resource` of the running process. -/
theorem releaseProgResource_spec (h : Exiting L s t) :
    runs (fun _ => False) (releaseProgResource s.cur) (fun _ s' => Frames (update L s.cur none) quits s' ∧
      KernelBits s' ∧ ∃ s₁, Vm.SameRest s s₁ ∧ Vm.SamePools s s₁ ∧
        LostPages (update L s.cur none) s₁ s' t.userprogVaddr.bits (userBtmpLen / 4096) ∧
        s'.kernelVaddr.size = s.kernelVaddr.size) s := by
  unfold releaseProgResource
  rw [runs_bind_ok (task_run h.record), h.user.len]
  refine runs_seq (releaseSpace_spec h.frames h.kernelBits h.space h.dir) ?_
  intro _ s₁ ⟨hsame, hpools, hf, hk⟩
  refine runs_post (mfreePage_kernel hf (fun _ => le_refl 0) hk h.user.heap (by decide) fun k hk' => ?_) ?_
  · obtain ⟨f, hf', hd⟩ := h.user.pages k (by rw [h.user.len]; omega)
    refine ⟨f, ?_, fun q hq => ?_⟩
    · rw [refs_kernel] at hf' ⊢
      rwa [hsame.kernelPte]
    · by_cases hqp : q = s.cur
      · rw [hqp, update_self] at hq
        cases hq
      · rw [update_of_ne hqp] at hq
        exact hd q hq
  · rintro - s' ⟨hf', hk', hlost, hkv⟩
    exact ⟨hf', hk', s₁, hsame, hpools, hlost, by rw [hkv, setRange_size, hsame.kernelVaddr]⟩

/-- The stops of `sys_exit` of a process with record `t`: there is no parent. -/
def ExitStop (s : Vm) (t : TaskStruct) (x : Stop) : Prop :=
  x = .assertion .sysExit ∧ t.parentPid = -1 ∨
    x = .fault ∧ (t.parentPid = t.pid ∨ s.pid2thread t.parentPid = none)

/-- `sys_exit` of the running process. -/
theorem sysExit_spec (h : Exiting L s t) : runs (ExitStop s t) sysExit (fun _ s' =>
    (Frames (update L s.cur none) quits s' ∧ KernelBits s' ∧ s'.kernelVaddr.size = s.kernelVaddr.size) ∧
      HasExited L s s' s.cur t) s := by
  have ht := h.record
  unfold sysExit
  rw [runs_read_bind, runs_bind_ok (task_run ht)]
  refine runs_guard_bind (fun hc => .inl ⟨rfl, not_not.1 hc⟩) fun _ => ?_
  unfold initAdoptAchild
  rw [runs_change_bind]
  -- the children get another parent
  have hrel := adopt_like s t.pid
  generalize hT : (fun q => (s.tasks q).map fun u => if u.parentPid = t.pid then { u with parentPid := 1 } else u) = T at *
  have hTq : ∀ q, Option.Rel Like (s.tasks q) (T q) := fun q => by rw [← hT]; exact hrel q
  obtain ⟨t₁, ht₁, hlike₁, hpar₁⟩ : ∃ t₁, T s.cur = some t₁ ∧ Like t t₁ ∧
      (t₁.parentPid = t.parentPid ∨ t.parentPid = t.pid) := by
    refine ⟨_, by rw [← hT]; simp only [ht, Option.map_some]; rfl, ?_, ?_⟩
    · have hlk := hTq s.cur
      rw [ht, ← hT] at hlk
      simp only [ht, Option.map_some] at hlk
      cases hlk with
      | some hlk => exact hlk
    · by_cases hself : t.parentPid = t.pid
      · exact .inr hself
      · exact .inl (by rw [if_neg hself])
  refine runs_seq (runs_mono (releaseProgResource_spec (s := { s with tasks := T }) (h.retask ht₁ hlike₁))
    (fun _ hE => hE.elim) fun _ _ hq => hq) ?_
  rintro - s₃ ⟨hf₃, hk₃, s₂, hsame, hpools, hlost, hroom⟩
  have ht₃ : s₃.tasks = T := hlost.rest.tasks.trans hsame.tasks
  rw [runs_bind_ok (task_run (by rw [ht₃]; exact ht₁)), runs_read_bind]
  cases hpar : s₃.pid2thread t₁.parentPid with
  | none =>
    refine .inr ⟨rfl, ?_⟩
    rw [pid2thread_like hTq ht₃ (hlost.rest.threadAllList.trans hsame.threadAllList)] at hpar
    rcases hpar₁ with he | he
    · exact .inr (he ▸ hpar)
    · exact .inl he
  | some parent =>
    obtain ⟨tp, htp, -⟩ := pid2thread_record hpar
    rw [get_some, runs_pure_bind, runs_bind_ok (task_run htp)]
    -- the parent may wake up
    refine runs_seq (P := fun _ s' => ∃ T', s' = { s₃ with tasks := T' } ∧ (∀ q, Option.Rel Like (T q) (T' q)) ∧
      ∀ q, (T' q).map (·.parentPid) = (T q).map (·.parentPid)) ?_ ?_
    · refine runs_when (fun hw => ?_) fun _ => ⟨T, by rw [← ht₃], fun q => rel_refl _, fun q => rfl⟩
      rw [runs_change]
      refine ⟨_, rfl, fun q => ?_, fun q => ?_⟩
      · by_cases hq : q = parent
        · subst hq
          rw [update_self, ← ht₃, htp]
          refine .some ⟨rfl, rfl, ?_, rfl, .inl rfl⟩
          unfold TaskStruct.live
          simp [hw]
        · rw [update_of_ne hq, ht₃]
          exact rel_refl _
      · by_cases hq : q = parent
        · subst hq
          rw [update_self, ← ht₃, htp]
          rfl
        · rw [update_of_ne hq, ht₃]
    rintro - _ ⟨T', rfl, hT', hpp⟩
    obtain ⟨t₄, ht₄, hlike₄⟩ := rel_after (hT' s.cur) ht₁
    have hpar₄ : t₄.parentPid = t₁.parentPid := by
      have hpp' := hpp s.cur
      rw [ht₁, ht₄] at hpp'
      exact Option.some.inj hpp'
    rw [runs_bind_ok (task_run (s := { s₃ with tasks := T' }) ht₄), runs_change]
    have hent₂ : entries (update L s.cur none) s₂ = entries (update L s.cur none) s :=
      entries_congr hsame.phys hsame.kernelPte
    generalize hs₅ : ({ s₃ with tasks := T' } : Vm).setTask s.cur (some { t₄ with status := .hanging }) = s₅
    have hent₅ : entries (update L s.cur none) s₅ = entries (update L s.cur none) s₃ := by
      rw [← hs₅]
      exact entries_congr rfl rfl
    have hdrop : ∀ r, r ∉ passed s.cur 768 kernelBase → entries (update L s.cur none) s₂ r = entries L s r :=
      fun r hr => by rw [hent₂]; exact entries_drop_of_ne (Vm.SameRest.refl s) hr
    have hx : HasExited L s s₅ s.cur t := by
      have hp₅ : Vm.SamePools s s₅ := by
        rw [← hs₅]
        exact ⟨hlost.rest.kernelStart.trans hpools.kernelStart, hlost.rest.kernelSize.trans hpools.kernelSize,
          hlost.rest.userStart.trans hpools.userStart, hlost.rest.userSize.trans hpools.userSize⟩
      refine ⟨hp₅, fun q hq => ?_, ⟨{ t₄ with status := .hanging }, ?_, ?_, rfl, ?_⟩, ?_, fun u hu => ?_,
        fun k hk => ?_, fun q v hq => ?_, ?_, ?_, ?_⟩
      · have hq₅ : s₅.tasks q = T' q := by
          rw [← hs₅]
          exact update_of_ne hq _ _
        rw [hq₅]
        exact rel_trans (hTq q) (hT' q)
      · rw [← hs₅]
        exact update_self ..
      · exact hlike₄.pgdir.trans hlike₁.pgdir
      · rcases hpar₁ with he | he
        · exact .inl (hpar₄.trans he)
        · exact .inr he
      · rw [← hs₅]
        exact hlost.rest.threadAllList.trans hsame.threadAllList
      · rw [hent₅, hlost.other _ fun k hk he => hu k hk (by injection he with he; rw [he, hlike₁.userprogVaddr])]
        exact hdrop _ fun hr => hr
      · rw [hent₅, ← hlike₁.userprogVaddr]
        exact hlost.gone k hk
      · rw [hent₅, hlost.other _ fun k _ he => by cases he]
        exact hdrop _ fun hr => hq hr.1
      · rw [← hs₅]
        exact hlost.phys.trans hsame.phys
      · rw [← hs₅]
        exact hlost.rest.cur.trans hsame.cur
      · rw [← hs₅]
        exact hlost.rest.cr3.trans hsame.cr3
    have hf₅ : Frames (update L s.cur none) quits s₅ := by
      unfold Frames
      rw [hent₅]
      exact hf₃.of_eq (by rw [← hs₅]; rfl) (by rw [← hs₅]; rfl) (by rw [← hs₅]; rfl)
    have hk₅ : KernelBits s₅ := by
      rw [← hs₅]
      exact ⟨hk₃.set, hk₃.mapped⟩
    exact ⟨⟨hf₅, hk₅, by rw [← hs₅]; exact hroom⟩, hx⟩

theorem Sound.sysExit (h : Sound L s) (ht : s.tasks s.cur = some t) (hl : t.live = true) :
    runs (ExitStop s t) Memory.sysExit (fun _ s' => Sound (update L s.cur none) s' ∧ HasExited L s s' s.cur t) s :=
  runs_post (sysExit_spec (h.exiting ht hl)) fun _ _ ⟨⟨hf, hk, hroom⟩, hx⟩ =>
    ⟨h.dropProcess ht hl hf hk hroom hx rfl, hx⟩

end

end Enix.Memory
