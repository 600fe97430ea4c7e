import Enix.Memory.UserPages

/-!
# The bitmap of a process and its pages

`UserSpace L s p u`: the bitmap `u` of process `p` is in pages of the kernel,
and a bit of it is set exactly when the page it stands for is mapped.

* `setBtmp_spec`, `setBtmpRange_spec`: `bitmap_set` on it changes its bits and
  nothing else.
* `vaddrGet_user`, `mallocPage_user`, `getAPage_user`, `mfreePage_user`: what
  the calls on the user half do; each reserves or returns bits at one point and
  entries at another.
-/
set_option autoImplicit false

namespace Enix.Memory
open Enix.Core Enix.Kernel Function

/-- The pages of the bitmap `u` are there, and none is a directory. -/
structure BtmpOk (L : Spaces) (s : Vm) (u : VirtualAddr) : Prop where
  heap : kHeapStart ≤ u.bits
  pages : KernelRange L s u.bits (u.btmpBytesLen / 4096 + 1)

/-- Process `p` and its bitmap `u` agree. -/
structure UserSpace (L : Spaces) (s : Vm) (p : Nat) (u : VirtualAddr) : Prop extends BtmpOk L s u where
  len : u.btmpBytesLen = userBtmpLen
  start : u.vaddrStart = userVaddrStart
  above : ∀ v, entries L s (.pte p v) ≠ none → userVaddrStart ≤ v
  bit : ∀ j, j < 8 * userBtmpLen →
    ((s.btmp u).bit j = true ↔ entries L s (.pte p (userVaddrStart + j)) ≠ none)

/-- The bitmap `u` has become `b`, and nothing else has changed. -/
structure SetBits (L : Spaces) (s s' : Vm) (u : VirtualAddr) (b : Bitmap) : Prop extends Stored L s s' where
  bit : ∀ j, j ≤ 8 * u.btmpBytesLen → (s'.btmp u).bit j = b.bit j
  phys : ∀ g, (∀ k, k ≤ u.btmpBytesLen / 4096 → refs L s (.kernel (u.bits + k)) ≠ some g) →
    s'.phys g = s.phys g

section
variable {L L' : Spaces} {due : Nat → Int} {s s₁ s' : Vm} {u : VirtualAddr} {t : TaskStruct} {r : Ref}
  {f g p q i j v w n k : Nat} {x : Bool}

/-! ## The bits -/

theorem BtmpOk.frame (hb : BtmpOk L s u) (h : Frames L due s) (hk : k ≤ u.btmpBytesLen / 4096) :
    ∃ f, refs L s (.kernel (u.bits + k)) = some f ∧ Plain L s f := by
  obtain ⟨f, hf, hd⟩ := hb.pages k (by omega)
  exact ⟨f, hf, h.plain_kernel hf hd⟩

theorem BtmpOk.mapped (hb : BtmpOk L s u) : s.btmpMapped u = true := by
  unfold Vm.btmpMapped
  rw [List.all_eq_true]
  intro k hk
  obtain ⟨f, hf, -⟩ := hb.pages k (List.mem_range.1 hk)
  exact (refs_kernel.1 hf).1

theorem BtmpOk.stored (hb : BtmpOk L s u) (h : Stored L s s') : BtmpOk L s' u :=
  ⟨hb.heap, by unfold KernelRange; rw [h.refs]; exact hb.pages⟩

theorem readBtmp_run (hb : BtmpOk L s u) : readBtmp u s = .ok (s.btmp u, s) := by
  unfold readBtmp
  rw [bind_ok (read_run _ s), bind_ok (guard_run hb.mapped _ s)]
  rfl

/-- A byte of the bitmap is written. -/
theorem btmp_setPhys (h : Frames L due s) (hb : BtmpOk L s u)
    (hf : refs L s (.kernel (u.bits + k)) = some f) (hi : i / 4096 ≤ u.btmpBytesLen / 4096) (b : Bytes) :
    ((s.setPhys f b).btmp u).bits i = if i / 4096 = k then b (i % 4096) else (s.btmp u).bits i := by
  have hheap := hb.heap
  obtain ⟨g, hg, -⟩ := hb.pages (i / 4096) (by omega)
  have hphys : ((s.setPhys f b).btmp u).bits i = (s.setPhys f b).phys g (i % 4096) := by
    unfold Vm.btmp
    simp only
    rw [show (s.setPhys f b).kernelPte = s.kernelPte from rfl, (refs_kernel.1 hg).2]
  by_cases hik : i / 4096 = k
  · rw [if_pos hik]
    rw [hik] at hg
    rw [hg] at hf
    cases hf
    rw [hphys, phys_setPhys_self]
  · rw [if_neg hik]
    have hgf : g ≠ f := fun he => by
      have hs := h.ok.kernel_only h.kernel_base (r := .kernel (u.bits + i / 4096)) (by omega) hf (he ▸ hg)
      injection hs
      omega
    rw [hphys, phys_setPhys_ne hgf]
    unfold Vm.btmp
    simp only
    rw [(refs_kernel.1 hg).2]

/-- `bitmap_set` on the bitmap of a process. -/
theorem setBtmp_spec (h : Frames L due s) (hb : BtmpOk L s u) (hi : i ≤ 8 * u.btmpBytesLen) :
    runs (fun _ => False) (setBtmp u i x) (fun _ s' => SetBits L s s' u ((s.btmp u).set i x)) s := by
  have hheap := heap_kernel hb.heap
  obtain ⟨f, hf, hplain⟩ := hb.frame h (k := i / 8 / 4096) (by omega)
  have hpage : (4096 * u.bits + i / 8) / 4096 = u.bits + i / 8 / 4096 := by omega
  have hoff : (4096 * u.bits + i / 8) % 4096 = i / 8 % 4096 := by omega
  unfold setBtmp storeByte
  rw [runs_bind_ok (readBtmp_run hb), runs_read_bind, hpage, walk_kernel (L := L) (by omega), hf, get_some,
    runs_pure_bind, runs_change, hoff]
  refine ⟨Stored.setPhys hplain _, fun j hj => ?_, fun g hg => ?_⟩
  · unfold Bitmap.bit
    congr 2
    rw [btmp_setPhys h hb hf (by omega)]
    by_cases hji : j / 8 = i / 8
    · rw [if_pos (by omega), hji, update_self]
    · have hset : ((s.btmp u).set i x).bits (j / 8) = (s.btmp u).bits (j / 8) := by
        unfold Bitmap.set
        simp only
        rw [if_neg hji]
      rw [hset]
      by_cases hpg : j / 8 / 4096 = i / 8 / 4096
      · rw [if_pos hpg, update_of_ne (by omega)]
        unfold Vm.btmp
        simp only
        rw [hpg, (refs_kernel.1 hf).2]
      · rw [if_neg hpg]
  · exact phys_setPhys_ne fun he => hg (i / 8 / 4096) (by omega) (he ▸ hf)

theorem SetBits.refl (L : Spaces) (s : Vm) (u : VirtualAddr) : SetBits L s s u (s.btmp u) :=
  ⟨Stored.refl L s, fun _ _ => rfl, fun _ _ => rfl⟩

theorem setBtmpRange_spec (u : VirtualAddr) (x : Bool) : ∀ n i s, Frames L due s → BtmpOk L s u →
    i + n ≤ 8 * u.btmpBytesLen + 1 →
    runs (fun _ => False) (setBtmpRange u x i n) (fun _ s' => SetBits L s s' u (setRange (s.btmp u) x i n)) s := by
  intro n
  induction n with
  | zero =>
    intro i s h hb hi
    exact SetBits.refl L s u
  | succ n ih =>
    intro i s h hb hi
    unfold setBtmpRange
    refine runs_seq (setBtmp_spec h hb (by omega)) fun _ s₁ h₁ => ?_
    refine runs_post (ih (i + 1) s₁ (h₁.frames h) (hb.stored h₁.toStored) (by omega)) fun _ s' h' => ?_
    refine ⟨h₁.toStored.trans h'.toStored, fun j hj => ?_, fun g hg => ?_⟩
    · rw [h'.bit j hj, bit_setRange, bit_setRange, h₁.bit j hj, Bitmap.bit_set]
      by_cases hji : j = i
      · rw [if_neg (by omega), if_pos hji, if_pos (by omega)]
      · rw [if_neg hji]
        by_cases hr : i + 1 ≤ j ∧ j < i + 1 + n
        · rw [if_pos hr, if_pos (by omega)]
        · rw [if_neg hr, if_neg (by omega)]
    · rw [h'.phys g (by rw [h₁.refs]; exact hg), h₁.phys g hg]

/-! ## Agreement -/

/-- The bits are in the frames of the pages. -/
theorem btmp_congr (hb : BtmpOk L s u)
    (hk : ∀ k f, k ≤ u.btmpBytesLen / 4096 → refs L s (.kernel (u.bits + k)) = some f →
      refs L' s' (.kernel (u.bits + k)) = some f ∧ s'.phys f = s.phys f)
    (hi : i / 4096 ≤ u.btmpBytesLen / 4096) : (s'.btmp u).bits i = (s.btmp u).bits i := by
  obtain ⟨f, hf, -⟩ := hb.pages (i / 4096) (by omega)
  obtain ⟨hf', hph⟩ := hk _ f hi hf
  unfold Vm.btmp
  simp only
  rw [(refs_kernel.1 hf).2, (refs_kernel.1 hf').2, hph]

/-- A process whose bitmap and entries are left alone stays in agreement. -/
theorem UserSpace.congr (h : UserSpace L s p u)
    (hk : ∀ k f, k ≤ u.btmpBytesLen / 4096 → refs L s (.kernel (u.bits + k)) = some f →
      refs L' s' (.kernel (u.bits + k)) = some f ∧ s'.phys f = s.phys f ∧ ∀ q, L' q ≠ some f)
    (he : ∀ v, entries L' s' (.pte p v) = none ↔ entries L s (.pte p v) = none) :
    UserSpace L' s' p u where
  heap := h.heap
  pages k hk' := by
    obtain ⟨f, hf, -⟩ := h.pages k hk'
    obtain ⟨hf', -, hd⟩ := hk k f (by omega) hf
    exact ⟨f, hf', hd⟩
  len := h.len
  start := h.start
  above v hv := h.above v fun hn => hv ((he v).2 hn)
  bit j hj := by
    have hlen := h.len
    have hb : (s'.btmp u).bit j = (s.btmp u).bit j := by
      unfold Bitmap.bit
      rw [btmp_congr h.toBtmpOk (fun k f hk' hf => ⟨(hk k f hk' hf).1, (hk k f hk' hf).2.1⟩) (by omega)]
    rw [hb, h.bit j hj, Ne, Ne, he]

/-- A range of bits and the entries of its pages have changed together. -/
theorem UserSpace.range (h : UserSpace L s p u) (hb : BtmpOk L s' u)
    (hbit : ∀ j, j < 8 * userBtmpLen → (s'.btmp u).bit j = (setRange (s.btmp u) x i n).bit j)
    (hin : ∀ v, userVaddrStart + i ≤ v → v < userVaddrStart + i + n →
      (entries L s' (.pte p v) ≠ none ↔ x = true))
    (hout : ∀ v, v < userVaddrStart + i ∨ userVaddrStart + i + n ≤ v →
      entries L s' (.pte p v) = entries L s (.pte p v)) : UserSpace L s' p u where
  heap := hb.heap
  pages := hb.pages
  len := h.len
  start := h.start
  above v hv := by
    by_cases hr : userVaddrStart + i ≤ v ∧ v < userVaddrStart + i + n
    · omega
    · rw [hout v (by omega)] at hv
      exact h.above v hv
  bit j hj := by
    rw [hbit j hj, bit_setRange]
    by_cases hr : i ≤ j ∧ j < i + n
    · rw [if_pos hr, hin _ (by omega) (by omega)]
    · rw [if_neg hr, hout _ (by omega)]
      exact h.bit j hj

/-- The last page that has a bit is the last of the user's half. -/
theorem userVaddrStart_add : userVaddrStart + 8 * userBtmpLen = kernelBase := by decide

theorem UserSpace.bit_clear (h : UserSpace L s p u) (hL : L p = some s.cr3)
    (hj : (s.btmp u).bit j = false) (hle : j ≤ 8 * userBtmpLen) :
    entries L s (.pte p (userVaddrStart + j)) = none := by
  by_contra hne
  by_cases hlt : j < 8 * userBtmpLen
  · rw [(h.bit j hlt).2 hne] at hj
    cases hj
  · obtain ⟨w, hw⟩ := Option.ne_none_iff_exists'.1 hne
    have hv := ((entries_pte hL).1 hw).1
    have := userVaddrStart_add
    omega

/-! ## Reserving bits -/

theorem runningThread_run (hc : s.cur = p) (ht : s.tasks p = some t) : runningThread s = .ok (t, s) := by
  unfold runningThread task
  rw [bind_ok (read_run _ s), bind_ok (read_run _ s), hc, ht]
  rfl

/-- The bitmap of a process has a run of `n` clear bits besides the last. -/
def Fits (b : Bitmap) (n : Nat) : Prop :=
  1 ≤ n ∧ ∃ m, m + n < 8 * userBtmpLen ∧ ∀ j, m ≤ j → j < m + n → b.bit j = false

theorem Fits.scan {b : Bitmap} (h : Fits b n) (hsize : b.size = 8 * userBtmpLen) :
    ∃ i : Nat, b.scan n = some (i : Int) ∧ i + n < 8 * userBtmpLen := by
  obtain ⟨hn, m, hm, hlow⟩ := h
  obtain ⟨i, hi, hle⟩ := Bitmap.scan_low hlow hn (by omega)
  exact ⟨i, hi, by omega⟩

/-- The size of a process's bitmap. -/
theorem UserSpace.btmp_size (h : UserSpace L s p u) : (s.btmp u).size = 8 * userBtmpLen := by
  rw [← h.len]
  rfl

/-- `vaddr_get` for a process: there is no run of clear bits, or the run it
finds is reserved. -/
theorem vaddrGet_user (h : Frames L due s) (hc : s.cur = p) (ht : s.tasks p = some t)
    (hu : UserSpace L s p t.userprogVaddr) (n : Nat) :
    runs (fun x => (x = .assertion .bitmapScan ∨ x = .assertion .vaddrGet) ∧ ¬ Fits (s.btmp t.userprogVaddr) n)
      (vaddrGet .user n) (fun r s' =>
      (r = none ∧ s' = s ∧ ¬ Fits (s.btmp t.userprogVaddr) n) ∨
      ∃ i : Nat, r = some (userVaddrStart + i) ∧ i + n ≤ 8 * userBtmpLen + 1 ∧
        userVaddrStart + i < kernelBase - 1 ∧ (Fits (s.btmp t.userprogVaddr) n → i + n < 8 * userBtmpLen) ∧
        (∀ j, i ≤ j → j < i + n → (s.btmp t.userprogVaddr).bit j = false) ∧
        SetBits L s s' t.userprogVaddr (setRange (s.btmp t.userprogVaddr) true i n)) s := by
  unfold vaddrGet
  rw [runs_bind_ok (runningThread_run hc ht), runs_bind_ok (readBtmp_run hu.toBtmpOk)]
  have hsize := hu.btmp_size
  have hfits : Fits (s.btmp t.userprogVaddr) n → ∃ i : Nat, (s.btmp t.userprogVaddr).scan n = some (i : Int) ∧
      i + n < 8 * userBtmpLen := fun hf => hf.scan hsize
  cases hscan : (s.btmp t.userprogVaddr).scan n with
  | none =>
    refine ⟨.inl rfl, fun hf => ?_⟩
    obtain ⟨i, hi, -⟩ := hfits hf
    rw [hscan] at hi
    cases hi
  | some m =>
    rw [get_some, runs_pure_bind]
    by_cases hm : m = -1
    · rw [if_pos hm]
      refine .inl ⟨rfl, rfl, fun hf => ?_⟩
      obtain ⟨i, hi, -⟩ := hfits hf
      rw [hscan, hm] at hi
      injection hi with hi
      omega
    rw [if_neg hm]
    obtain ⟨i, rfl, hle, hclear⟩ := Bitmap.scan_clear hscan hm
    rw [hsize] at hle
    have hlow : Fits (s.btmp t.userprogVaddr) n → i + n < 8 * userBtmpLen := fun hf => by
      obtain ⟨j, hj, hlt⟩ := hfits hf
      rw [hscan] at hj
      injection hj with hj
      omega
    rw [Int.toNat_natCast]
    refine runs_seq (runs_mono (setBtmpRange_spec t.userprogVaddr true n i s h hu.toBtmpOk
      (by rw [hu.len]; exact hle)) (fun _ hf => hf.elim) fun _ _ hq => hq) ?_
    intro _ s₁ h₁
    rw [hu.start]
    refine runs_guard_bind (fun hv => ⟨.inr rfl, fun hf => hv ?_⟩) fun hv => ?_
    · have hend := userVaddrStart_add
      have hlt := hlow hf
      have hn := hf.1
      omega
    · exact .inr ⟨i, rfl, hle, hv, hlow, fun j h1 h2 => hclear j h1 h2, h₁⟩

/-- `vaddr_remove` for a process. -/
theorem vaddrRemove_user (h : Frames L due s) (hc : s.cur = p) (ht : s.tasks p = some t)
    (hb : BtmpOk L s t.userprogVaddr) (hv : t.userprogVaddr.vaddrStart ≤ v)
    (hn : v - t.userprogVaddr.vaddrStart + n ≤ 8 * t.userprogVaddr.btmpBytesLen) :
    runs (fun _ => False) (vaddrRemove .user v n) (fun _ s' => SetBits L s s' t.userprogVaddr
      (setRange (s.btmp t.userprogVaddr) false (v - t.userprogVaddr.vaddrStart) n)) s := by
  unfold vaddrRemove
  rw [runs_bind_ok (runningThread_run hc ht), runs_bind_ok (guard_run hv _ s)]
  exact setBtmpRange_spec t.userprogVaddr false n _ s h hb (by omega)

end

end Enix.Memory
