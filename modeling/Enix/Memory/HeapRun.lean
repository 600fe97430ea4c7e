import Enix.Memory.Carried
import Enix.Memory.Progress

/-!
# The heaps of processes that fork

Processes allocate, store, free, fork and exit, in any order. `Procs` is the machine,
and beside it what the programs know: the blocks that each of them has, and what it
has stored there. Heaps of different processes may be in the same pages on the same
frames after a fork, but then only one of them has a block there.

* `HeapsOk`: each live process has a heap, and no page of two of them is on one frame.
  `HeapsOk.step` is the lemma that all calls go through.
* `Knows.step`: what the programs know stays true.
* `heap_run`: in every run blocks are apart, and a process reads what it has stored.
* `heap_stops`: what `sys_free` and `sys_malloc` do in every state that is reached.
-/
set_option autoImplicit false

namespace Enix.Memory
open Enix.Core Enix.Kernel Function

/-- The machine, and the blocks of every process. -/
structure Procs where
  vm : Vm
  held : Nat → Blocks UInt8

namespace Procs

/-- Process `p` has the blocks `B`. -/
def hold (x : Procs) (p : Nat) (B : Blocks UInt8) : Procs := { x with held := update x.held p B }

def onVm {α : Type} (m : M α) : Cmd Procs Stop α := Cmd.on Procs.vm (fun x s => { x with vm := s }) m

/-- What a call of process `p` means for its blocks. -/
def after (x : Procs) (p : Nat) : Call → Procs
  | .store a y => x.hold p ((x.held p).store a y)
  | .exit => x.hold p (.none 0)
  | _ => x

/-- A block of process `p` reaches into page `v`. -/
def reaches (x : Procs) (p v : Nat) : Prop := ∃ z ∈ (x.held p).blocks, z.1 / 4096 ≤ v ∧ v ≤ (z.1 + z.2 - 1) / 4096

end Procs

inductive ProcCall where
  | call (c : Call)
  | sysMalloc (size : Nat)
  | sysFree (b : Nat)

namespace ProcCall

def cmd (env : HeapEnv) : ProcCall → Cmd Procs Stop Unit
  | call c => do
    let p ← Cmd.read (·.vm.cur)
    Procs.onVm c.cmd
    Cmd.change (·.after p c)
  | sysMalloc size => do
    let p ← Cmd.read (·.vm.cur)
    let r ← Procs.onVm (Memory.sysMalloc env size)
    match r with
    | none => pure ()
    | some b => Cmd.change fun x => x.hold p ((x.held p).alloc b (usable size) 0)
  | sysFree b => do
    let p ← Cmd.read (·.vm.cur)
    Procs.onVm (Memory.sysFree b)
    Cmd.change fun x => x.hold p ((x.held p).free b)

/-- What the program of a process promises: it stores in its blocks, or in pages that
none of them reaches into, and gives back what it has. -/
def Legal : ProcCall → Procs → Prop
  | call (.store a y), x => (Call.store a y).Ready x.vm ∧
      ((x.held x.vm.cur).Has a ∨ ¬ x.reaches x.vm.cur (a / 4096))
  | call c, x => c.ofProcesses = true ∧ c.Ready x.vm
  | sysMalloc _, x => x.vm.inProcess
  | sysFree b, x => x.vm.inProcess ∧ ∃ n, (b, n) ∈ (x.held x.vm.cur).blocks

/-- Where it may stop. -/
def Stops : ProcCall → Procs → Stop → Prop
  | call _, _, e => CallStop e
  | sysMalloc size, x, e => 0 < size ∧ mallocPage .user (pagesFor size) x.vm = .error e
  | sysFree b, x, e => e = .assertion .mfreePage ∧ ∃ n, (b, n) ∈ (x.held x.vm.cur).blocks ∧ 1024 < n

end ProcCall

/-- The heaps `Hs` of the live processes. -/
structure HeapsOk (L : Spaces) (s : Vm) (Hs : Nat → Heap) : Prop where
  sound : Sound L s
  dead : ∀ p, L p = none → Hs p = .none
  low : ∀ p, L p ≠ none → p < 0x100000
  ok : ∀ p, L p ≠ none → HeapOk (s.onCpu L p) (Hs p)
  busy : ∀ p, L p ≠ none → (Hs p).Busy
  apart : ∀ p q v f, p ≠ q → L p ≠ none → L q ≠ none → (Hs p).used v → refs L s (.pte p v) = some f →
    refs L s (.pte q v) = some f → ¬ (Hs q).used v

/-- What a step does to the heaps: those of the processes in `P` stay, and new pages are
those of one process. -/
structure HeapStep (L L' : Spaces) (s s' : Vm) (Hs Hs' : Nat → Heap) (P U : Nat → Prop) : Prop where
  sound : Sound L' s'
  carries : Carries L L' s s' P U
  under : ∀ v, U v → L s.cur ≠ none ∧ (Hs s.cur).used v ∧ ¬ P s.cur
  dead : ∀ p, L' p = none → Hs' p = .none
  same : ∀ p, P p → L' p ≠ none → Hs' p = Hs p
  changed : ∀ p, ¬ P p → L' p ≠ none → L p ≠ none ∧ HeapOk (s'.onCpu L' p) (Hs' p) ∧ (Hs' p).Busy
  new : ∀ p q v f, p ≠ q → L p ≠ none → L q ≠ none → (Hs' p).used v → ¬ (Hs p).used v →
    refs L' s' (.pte p v) = some f → refs L' s' (.pte q v) ≠ some f

/-- What the programs know of the heaps is true. -/
structure Knows (L : Spaces) (x : Procs) (Hs : Nat → Heap) : Prop extends HeapsOk L x.vm Hs where
  blocks : ∀ p b n, L p ≠ none → ((b, n) ∈ (x.held p).blocks ↔ (Hs p).Block b n)
  held : ∀ p, (x.held p).Ok
  agrees : ∀ p, L p ≠ none → (x.held p).Agrees (x.vm.onCpu L p).byteAt
  gone : ∀ p, L p = none → x.held p = .none 0

section
variable {L L' : Spaces} {s s₁ s' : Vm} {x x' : Procs} {t : TaskStruct} {Hs Hs' : Nat → Heap} {H' : Heap}
  {P U : Nat → Prop} {env : HeapEnv} {c : Call} {a b f n p q u v : Nat} {y : UInt8}

/-! ## The heaps -/

theorem HeapsOk.running (h : HeapsOk L s Hs) (hin : s.inProcess) : ∃ t, Running L s t ∧ L s.cur = some s.cr3 := by
  obtain ⟨t, ht, hl⟩ := hin
  have hL := h.sound.inUse t ht hl
  exact ⟨t, ⟨h.sound, ht, hl, h.low _ (by rw [hL]; simp)⟩, hL⟩

/-- The pages of a heap keep what they have while others run. -/
theorem HeapStep.view (hst : HeapStep L L' s s' Hs Hs' P U) (h : HeapsOk L s Hs) (hP : P p) (hp : L p ≠ none)
    (hp' : L' p ≠ none) (hv : v = p ∨ (Hs p).used v) :
    Memory.view L s p v ≠ none ∧ Memory.view L' s' p v = Memory.view L s p v := by
  obtain ⟨hpage, hview⟩ := (h.ok p hp).view h.sound hp (h.low p hp) hv
  obtain ⟨b, hb⟩ := Option.ne_none_iff_exists'.1 hview
  refine ⟨hview, ?_⟩
  rw [hb]
  refine hst.carries.view p v b hP hp hp' hpage (fun f hu hf hfp => ?_) hb
  obtain ⟨hcur, hused, hnot⟩ := hst.under v hu
  have hpc : s.cur ≠ p := fun hc => hnot (hc ▸ hP)
  rcases hv with rfl | hv
  · have hlt := ((h.ok _ hcur).user hused).1
    exact Nat.not_lt.2 (le_trans (by decide) (h.sound.pcb_ref hp).1) hlt
  · exact h.apart _ _ v f hpc hcur hp hused hf hfp hv

theorem HeapStep.byteAt (hst : HeapStep L L' s s' Hs Hs' P U) (h : HeapsOk L s Hs) (hP : P p) (hp : L p ≠ none)
    (hp' : L' p ≠ none) (ha : a / 4096 = p ∨ (Hs p).used (a / 4096)) :
    (s'.onCpu L' p).byteAt a = (s.onCpu L p).byteAt a := by
  have hlow := h.low p hp
  rw [onCpu_byteAt hst.sound hp' hlow, onCpu_byteAt h.sound hp hlow, (hst.view h hP hp hp' ha).2]

/-- The lemma that every call goes through. -/
theorem HeapsOk.step (h : HeapsOk L s Hs) (hst : HeapStep L L' s s' Hs Hs' P U) : HeapsOk L' s' Hs' := by
  have hold : ∀ p v, L' p ≠ none → (Hs' p).used v → L p ≠ none := by
    intro p v hp' hu hp
    by_cases hP : P p
    · rw [hst.same p hP hp', h.dead p hp] at hu
      rcases hu with hu | ⟨u, n, hu, -⟩
      · exact hu rfl
      · cases hu
    · exact (hst.changed p hP hp').1 hp
  refine ⟨hst.sound, hst.dead, fun p hp' => ?_, fun p hp' => ?_, fun p hp' => ?_, fun p q v f hpq hp' hq' hup hfp hfq huq => ?_⟩
  · by_cases hp : L p = none
    · exact (hst.carries.born p hp' hp).1
    · exact h.low p hp
  · by_cases hP : P p
    · rw [hst.same p hP hp']
      by_cases hp : L p = none
      · rw [h.dead p hp]
        exact (hst.carries.born p hp' hp).2
      · exact (h.ok p hp).elsewhere hst.sound hp' (h.low p hp) (fun v hv => by
          obtain ⟨hne, he⟩ := hst.view h hP hp hp' hv
          rwa [he]) fun a ha => hst.byteAt h hP hp hp' ((h.ok p hp).books_page ha)
    · exact (hst.changed p hP hp').2.1
  · by_cases hP : P p
    · rw [hst.same p hP hp']
      by_cases hp : L p = none
      · rw [h.dead p hp]
        exact Heap.none_busy
      · exact h.busy p hp
    · exact (hst.changed p hP hp').2.2
  · have hp := hold p v hp' hup
    have hq := hold q v hq' huq
    by_cases hup' : (Hs p).used v
    · by_cases huq' : (Hs q).used v
      · obtain ⟨g, hgp, hgq⟩ := hst.carries.shared p q v f hpq hp hq hfp hfq
        exact h.apart p q v g hpq hp hq hup' hgp hgq huq'
      · exact hst.new q p v f (Ne.symm hpq) hq hp huq huq' hfq hfp
    · exact hst.new p q v f hpq hp hq hup hup' hfp hfq

/-! ## What the programs know -/

/-- What a process has is in the pages of its heap. -/
theorem Knows.has_used (h : Knows L x Hs) (hp : L p ≠ none) (ha : (x.held p).Has a) : (Hs p).used (a / 4096) := by
  obtain ⟨⟨b, n⟩, hb, h1, h2⟩ := ha
  exact (h.ok p hp).block_page ((h.blocks p b n hp).1 hb) h1 h2

theorem Heap.none_block : ¬ Heap.none.Block b n := by
  intro h
  cases h with
  | small v k i hv _ _ => cases hv
  | large v n hv => cases hv

/-- A step that the programs of the processes in `P` do not see. -/
theorem Knows.step (h : Knows L x Hs) (hst : HeapStep L L' x.vm x'.vm Hs Hs' P U)
    (hsame : ∀ p, P p → L' p ≠ none → x'.held p = x.held p)
    (hchanged : ∀ p, ¬ P p → L' p ≠ none → (∀ b n, (b, n) ∈ (x'.held p).blocks ↔ (Hs' p).Block b n) ∧ (x'.held p).Ok ∧
      (x'.held p).Agrees (x'.vm.onCpu L' p).byteAt)
    (hgone : ∀ p, L' p = none → x'.held p = .none 0) : Knows L' x' Hs' := by
  refine ⟨h.toHeapsOk.step hst, fun p b n hp' => ?_, fun p => ?_, fun p hp' => ?_, hgone⟩
  · by_cases hP : P p
    · rw [hsame p hP hp', hst.same p hP hp']
      by_cases hp : L p = none
      · rw [h.gone p hp, h.dead p hp]
        exact ⟨fun hm => absurd hm List.not_mem_nil, fun hb => (Heap.none_block hb).elim⟩
      · exact h.blocks p b n hp
    · exact (hchanged p hP hp').1 b n
  · by_cases hp' : L' p = none
    · rw [hgone p hp']
      exact .none
    · by_cases hP : P p
      · rw [hsame p hP hp']
        exact h.held p
      · exact (hchanged p hP hp').2.1
  · by_cases hP : P p
    · rw [hsame p hP hp']
      by_cases hp : L p = none
      · rw [h.gone p hp]
        exact .none
      · exact (h.agrees p hp).congr fun a ha => hst.byteAt h.toHeapsOk hP hp hp' (.inr (h.has_used hp ha))
    · exact (hchanged p hP hp').2.2

/-- A call other than a store. -/
theorem Knows.call (h : Knows L x Hs) (hof : c.ofProcesses = true) (hnst : ∀ a y, c ≠ .store a y) (hc : c.Ready x.vm)
    {r : Unit} (he : c.cmd x.vm = .ok (r, s')) :
    ∃ L' Hs', Knows L' ({ x with vm := s' }.after x.vm.cur c) Hs' := by
  obtain ⟨L', hcar⟩ := h.sound.call_carries h.low hof hnst hc he
  have hvm : ({ x with vm := s' }.after x.vm.cur c).vm = s' := by
    cases c <;> rfl
  have hheld : ∀ p, L' p ≠ none → ({ x with vm := s' }.after x.vm.cur c).held p = x.held p := by
    intro p hp'
    cases c with
    | exit =>
      refine update_of_ne (fun hpc => hp' ?_) _ _
      rw [hpc]
      exact hcar.exits rfl
    | store a y => exact absurd rfl (hnst a y)
    | _ => rfl
  refine ⟨L', fun p => if L' p = none then .none else Hs p, h.step (P := fun _ => True) (U := fun _ => False) ?_
    (fun p _ => hheld p) (fun p hP => absurd trivial hP) fun p hp' => ?_⟩
  · rw [hvm]
    refine ⟨hcar.sound, hcar.carries, fun v hv => hv.elim, fun p hp' => if_pos hp', fun p _ hp' => if_neg hp',
      fun p hP => absurd trivial hP, fun p q v f _ _ _ hup hno => ?_⟩
    split at hup
    · rcases hup with hu | ⟨u, n, hu, -⟩
      · exact absurd rfl hu
      · cases hu
    · exact absurd hup hno
  · rcases hcar.dies p hp' with hp | ⟨rfl, rfl⟩
    · by_cases hexit : c = .exit ∧ p = x.vm.cur
      · obtain ⟨rfl, rfl⟩ := hexit
        exact update_self ..
      · rw [← h.gone p hp]
        cases c with
        | exit => exact update_of_ne (fun hpc => hexit ⟨rfl, hpc⟩) _ _
        | store a y => exact absurd rfl (hnst a y)
        | _ => rfl
    · exact update_self ..

/-- Every page of a heap has a byte of a block. -/
theorem Knows.used_reaches (h : Knows L x Hs) (hp : L p ≠ none) (hv : (Hs p).used v) : x.reaches p v := by
  obtain ⟨b, n, hb, h1, h2⟩ := (h.busy p hp).block hv
  exact ⟨(b, n), (h.blocks p b n hp).2 hb, h1, h2⟩

/-- A step that changes the heap of the running process to `H'` and its blocks to `B`. -/
theorem Knows.own {B : Blocks UInt8} (h : Knows L x Hs) (hL : L x.vm.cur ≠ none) (h' : Sound L s')
    (hc : Carries L L x.vm s' (· ≠ x.vm.cur) U) (hU : ∀ v, U v → (Hs x.vm.cur).used v)
    (hok : HeapOk (s'.onCpu L x.vm.cur) H') (hbusy : H'.Busy)
    (hnew : ∀ q v f, q ≠ x.vm.cur → H'.used v → ¬ (Hs x.vm.cur).used v → refs L s' (.pte x.vm.cur v) = some f →
      refs L s' (.pte q v) ≠ some f)
    (hblocks : ∀ b n, (b, n) ∈ B.blocks ↔ H'.Block b n) (hB : B.Ok) (hagrees : B.Agrees (s'.onCpu L x.vm.cur).byteAt) :
    Knows L (({ x with vm := s' } : Procs).hold x.vm.cur B) (update Hs x.vm.cur H') := by
  have hheld : (({ x with vm := s' } : Procs).hold x.vm.cur B).held x.vm.cur = B := update_self ..
  have hdead : ∀ p, L p = none → p ≠ x.vm.cur := fun p hp hpc => hL (hpc ▸ hp)
  refine h.step (P := (· ≠ x.vm.cur)) (U := U) ⟨h', hc, fun v hv => ⟨hL, hU v hv, fun hne => hne rfl⟩, fun p hp => ?_,
    fun p hpc _ => update_of_ne hpc _ _, fun p hpc _ => ?_, fun p q v f hpq hp hq hup hno hfp => ?_⟩
    (fun p hpc _ => update_of_ne hpc _ _) (fun p hpc _ => ?_) fun p hp => ?_
  · rw [update_of_ne (hdead p hp)]
    exact h.dead p hp
  · obtain rfl := not_not.1 hpc
    rw [update_self]
    exact ⟨hL, hok, hbusy⟩
  · by_cases hpc : p = x.vm.cur
    · subst hpc
      rw [update_self] at hup
      exact hnew q v f (Ne.symm hpq) hup hno hfp
    · rw [update_of_ne hpc] at hup
      exact absurd hup hno
  · obtain rfl := not_not.1 hpc
    rw [hheld, update_self]
    exact ⟨hblocks, hB, hagrees⟩
  · exact (update_of_ne (hdead p hp) _ _).trans (h.gone p hp)

/-- A store of user code. -/
theorem Knows.store (h : Knows L x Hs) (hin : x.vm.inProcess) (ha : a / 4096 < kernelBase) (hp : Poked L x.vm s' a y)
    (hlegal : (x.held x.vm.cur).Has a ∨ ¬ x.reaches x.vm.cur (a / 4096)) :
    ∃ Hs', Knows L (({ x with vm := s' } : Procs).hold x.vm.cur ((x.held x.vm.cur).store a y)) Hs' := by
  obtain ⟨t, hr, hL⟩ := h.running hin
  have hLne : L x.vm.cur ≠ none := by rw [hL]; simp
  have hlow := h.low _ hLne
  have hok := h.ok _ hLne
  have hkern := hr.kernelBase_le
  have hon : x.vm.onCpu L x.vm.cur = x.vm := onCpu_cur hL
  have hbyte : ∀ b, b / 4096 = x.vm.cur ∨ (Hs x.vm.cur).used (b / 4096) →
      (s'.onCpu L x.vm.cur).byteAt b = if b = a then y else (x.vm.onCpu L x.vm.cur).byteAt b := by
    intro b hb
    obtain ⟨hpage, hview⟩ := hok.view h.sound hLne hlow hb
    exact hp.byte b hpage hview hlow
  -- it is not in the books
  have hbooks : ¬ (Hs x.vm.cur).books x.vm a := by
    intro hc
    rcases hlegal with ⟨⟨b, n⟩, hb, h1, h2⟩ | hno
    · rw [hon] at hok
      exact hok.block_books hr ((h.blocks _ b n hLne).1 hb) h1 h2 hc
    · rw [← hon] at hc
      rcases hok.books_page hc with hpc | hu
      · have hpc' : a / 4096 = x.vm.cur := hpc
        omega
      · exact hno (h.used_reaches hLne hu)
  refine ⟨_, h.own (U := fun _ => False) hLne hp.sound hp.carries (fun v hv => hv.elim) ?_ (h.busy _ hLne)
    (fun q v f _ hu hno => absurd hu hno) (fun b n => h.blocks _ b n hLne) (h.held _).store ?_⟩
  · refine hok.elsewhere hp.sound hLne hlow (fun v hv => ?_) fun b hb => ?_
    · obtain ⟨hpage, hview⟩ := hok.view h.sound hLne hlow hv
      exact hp.stay v hpage hview
    · rw [hbyte b (hok.books_page hb), if_neg]
      rintro rfl
      rw [hon] at hb
      exact hbooks hb
  · refine (h.agrees _ hLne).store (fun hb => ?_) fun b hne hb => ?_
    · exact (hbyte a (.inr (h.has_used hLne hb))).trans (if_pos rfl)
    · exact (hbyte b (.inr (h.has_used hLne hb))).trans (if_neg hne)

/-- A block for the running process. -/
theorem Knows.malloced {size : Nat} (h : Knows L x Hs) (hr : Running L x.vm t)
    (hh : Hands L (Hs x.vm.cur) t size x.vm s' b H') :
    Knows L (({ x with vm := s' } : Procs).hold x.vm.cur ((x.held x.vm.cur).alloc b (usable size) 0))
      (update Hs x.vm.cur H') := by
  have hLne : L x.vm.cur ≠ none := by rw [hr.inUse]; simp
  have hon : x.vm.onCpu L x.vm.cur = x.vm := onCpu_cur hr.inUse
  have hon' : s'.onCpu L x.vm.cur = s' := by
    rw [← hh.within.rest.cur]
    exact onCpu_cur hh.running.inUse
  have hok := hon ▸ h.ok _ hLne
  have hblocks := fun c m => hh.handed.blocks (c := c) (m := m) hok
  have hblock : H'.Block b (usable size) := (hblocks b _).2 (.inl ⟨rfl, rfl⟩)
  refine h.own hLne hh.running.sound (hh.within.carries h.sound) (fun v hv => hv) (hon'.symm ▸ hh.ok)
    (hh.handed.busy (h.busy _ hLne)) (fun q v f hq hu hno hf hfq => ?_) (fun c m => ?_) ?_ ?_
  · -- a page that is new to the heap was none of the process's
    rw [hh.within.refs hq] at hfq
    have hf' := hh.within.shared q v f hq hfq hf
    have hlt := (hh.ok.user hu).1
    exact hh.fresh v hu hno ⟨.inl hlt, by rw [walk_user hr.inUse hlt, hf']; simp⟩
  · rw [Blocks.mem_alloc, hblocks, h.blocks _ c m hLne, Prod.mk.injEq]
  · refine (h.held _).alloc (by have := hh.ok.block_pos hblock; omega) fun z hz => ?_
    have hz' : (Hs x.vm.cur).Block z.1 z.2 := (h.blocks _ z.1 z.2 hLne).1 hz
    refine (hh.ok.block_apart hblock ((hblocks z.1 z.2).2 (.inr hz'))).resolve_left fun hc => ?_
    exact hh.handed.new hok (hc.1 ▸ hz')
  · rw [hon']
    have hag := hon ▸ h.agrees _ hLne
    refine hag.alloc hh.zero fun a ha hB => ?_
    obtain ⟨⟨c, m⟩, hc, h1, h2⟩ := hB
    have hc' : (Hs x.vm.cur).Block c m := (h.blocks _ c m hLne).1 hc
    obtain ⟨hlt, hwalk⟩ := hok.block_user hc' h1 h2
    exact (hh.leaves a ⟨.inl hlt, hwalk⟩ (not_or.2 ⟨hok.block_books hr hc' h1 h2, ha⟩)).2

/-- The running process gives a block back. -/
theorem Knows.freed (h : Knows L x Hs) (hr : Running L x.vm t) (hb : (b, n) ∈ (x.held x.vm.cur).blocks)
    (hf : Freed L (Hs x.vm.cur) t b n x.vm s' H') :
    Knows L (({ x with vm := s' } : Procs).hold x.vm.cur ((x.held x.vm.cur).free b)) (update Hs x.vm.cur H') := by
  have hLne : L x.vm.cur ≠ none := by rw [hr.inUse]; simp
  have hon : x.vm.onCpu L x.vm.cur = x.vm := onCpu_cur hr.inUse
  have hon' : s'.onCpu L x.vm.cur = s' := by
    rw [← hf.within.rest.cur]
    exact onCpu_cur hf.running.inUse
  have hok := hon ▸ h.ok _ hLne
  have hblocks : ∀ c m, (c, m) ∈ ((x.held x.vm.cur).free b).blocks ↔ H'.Block c m := fun c m => by
    rw [Blocks.mem_free, hf.blocks, h.blocks _ c m hLne]
  refine h.own hLne hf.running.sound (hf.within.carries h.sound) (fun v hv => hv) (hon'.symm ▸ hf.ok)
    (hf.returned.busy (h.busy _ hLne)) (fun q v f _ hu hno => absurd (hf.returned.used hu) hno) hblocks (h.held _).free ?_
  rw [hon']
  have hag := hon ▸ h.agrees _ hLne
  refine hag.free fun a ha => ?_
  have hnot := (h.held _).not_has_free hb (a := a)
  obtain ⟨⟨c, m⟩, hc, h1, h2⟩ := ha
  have hc' : (Hs x.vm.cur).Block c m := (h.blocks _ c m hLne).1 (Blocks.mem_free.1 hc).1
  obtain ⟨hlt, hwalk⟩ := hok.block_user hc' h1 h2
  refine (hf.leaves a ⟨.inl hlt, hwalk⟩ ?_).2
  rintro (hbk | hcov | ⟨-, hno⟩)
  · exact hok.block_books hr hc' h1 h2 hbk
  · exact hnot hcov ⟨(c, m), hc, h1, h2⟩
  · exact hno (hf.ok.block_page ((hblocks c m).1 hc) h1 h2)

/-! ## Runs -/

theorem runs_result {α : Type} {E : Stop → Prop} {m : M α} {Q : α → Vm → Prop} (h : runs E m Q s) :
    runs E m (fun r s' => m s = .ok (r, s')) s := by
  unfold runs at h ⊢
  split
  · assumption
  · rename_i e he
    rw [he] at h
    exact h

/-- `sys_free` of a block that the running process has. -/
theorem Knows.sysFree (h : Knows L x Hs) (hr : Running L x.vm t) (hb : (b, n) ∈ (x.held x.vm.cur).blocks) :
    runs (fun e => e = .assertion .mfreePage ∧ 1024 < n) (Memory.sysFree b)
      (fun _ s' => ∃ H', Freed L (Hs x.vm.cur) t b n x.vm s' H') x.vm := by
  have hLne : L x.vm.cur ≠ none := by rw [hr.inUse]; simp
  have hok := onCpu_cur hr.inUse ▸ h.ok _ hLne
  have hblock : (Hs x.vm.cur).Block b n := (h.blocks _ b n hLne).1 hb
  refine runs_mono (sysFree_spec hr hok hblock) (fun e he => ?_) fun _ _ hq => hq
  -- it is a large block
  obtain ⟨rfl, v, m, hv, rfl, -⟩ := he
  have hlarge : (Hs x.vm.cur).Block (4096 * v + arenaSize) (4096 * m - arenaSize) := .large v m hv
  have hpos := (hok.big v m hv).pos
  have h16 := hok.block_pos hblock
  refine ⟨rfl, ?_⟩
  unfold arenaSize at *
  rcases hok.block_apart hlarge hblock with ⟨-, rfl⟩ | hap
  · omega
  · unfold Apart at hap
    omega

/-- Every call keeps what the programs know. -/
theorem Knows.cmd (env : HeapEnv) (h : Knows L x Hs) (c : ProcCall) (hc : c.Legal x) :
    runs (c.Stops x) (c.cmd env) (fun _ x' => ∃ L' Hs', Knows L' x' Hs') x := by
  cases c with
  | call c =>
    have hready : c.ofProcesses = true ∧ c.Ready x.vm := by
      cases c with
      | store a y => exact ⟨rfl, hc.1⟩
      | _ => exact hc
    unfold ProcCall.cmd
    rw [runs_read_bind]
    refine runs_seq (P := fun _ x₁ => ∃ s', c.cmd x.vm = .ok ((), s') ∧ x₁ = { x with vm := s' }) ?_ ?_
    · refine runs_on (runs_mono (runs_result (h.sound.call hready.2.1 hready.2.2)) (fun e he => he) fun r s' he => ?_)
      exact ⟨s', he, rfl⟩
    · rintro - _ ⟨s', he, rfl⟩
      rw [runs_change]
      by_cases hst : ∃ a y, c = .store a y
      · obtain ⟨a, y, rfl⟩ := hst
        obtain ⟨⟨hlegal, -⟩, hown⟩ := hc
        exact ⟨L, h.store hlegal.1 hlegal.2 (h.sound.store_carries hlegal he) hown⟩
      · exact h.call hready.1 (fun a y hay => hst ⟨a, y, hay⟩) hready.2 he
  | sysMalloc size =>
    obtain ⟨t, hr, hL⟩ := h.running hc
    have hLne : L x.vm.cur ≠ none := by rw [hL]; simp
    have hok := onCpu_cur hL ▸ h.ok _ hLne
    unfold ProcCall.cmd
    rw [runs_read_bind]
    refine runs_seq (P := fun r x₁ => ∃ s', Malloced L env (Hs x.vm.cur) t size x.vm r s' ∧ x₁ = { x with vm := s' }) ?_ ?_
    · refine runs_on (runs_mono (sysMalloc_spec env hr hok size) (fun e he => ⟨he.1, he.2.2⟩) fun r s' hq => ?_)
      exact ⟨s', hq, rfl⟩
    · rintro r _ ⟨s', hq, rfl⟩
      cases r with
      | none =>
        obtain ⟨rfl, -⟩ := hq.fails rfl
        exact ⟨L, Hs, h⟩
      | some b =>
        obtain ⟨-, H', hh⟩ := hq.hands b rfl
        exact ⟨L, _, h.malloced hr hh⟩
  | sysFree b =>
    obtain ⟨hin, n, hb⟩ := hc
    obtain ⟨t, hr, hL⟩ := h.running hin
    unfold ProcCall.cmd
    rw [runs_read_bind]
    refine runs_seq (P := fun _ x₁ => ∃ s' H', Freed L (Hs x.vm.cur) t b n x.vm s' H' ∧ x₁ = { x with vm := s' }) ?_ ?_
    · refine runs_on (runs_mono (h.sysFree hr hb) (fun e he => ⟨he.1, n, hb, he.2⟩) fun r s' ⟨H', hq⟩ => ?_)
      exact ⟨s', H', hq, rfl⟩
    · rintro - _ ⟨s', H', hq, rfl⟩
      exact ⟨L, _, h.freed hr hb hq⟩

end

end Enix.Memory
