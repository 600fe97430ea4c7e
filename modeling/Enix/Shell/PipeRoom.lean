import Enix.Shell.Fifo

/-!
# Room in a pipe (`shell/pipe.c`)

A ring of 64 places holds 63 bytes. `pipe_write` takes `bufsize` less the length
for the room there is, one byte too many; `pipe_read` goes by the length.

* `pipeRead_returns`: a read never sleeps.
* `pipe_noWait_iff`: a write stores what there is room for and never sleeps if
  and only if it has room for all its bytes.
-/
set_option autoImplicit false

namespace Enix.Fs
open Enix.Core Enix.Kernel

/-- The bytes that can be stored before the ring is full. -/
def ioqFree (q : Ioqueue) : Nat := bufsize - 1 - ioqLength q

/-- `pipe_write` stores as many bytes as there is room for and returns; so it never
gets to `ioq_wait`. -/
def WriteReturns (cur : Pid) (fd count : Nat) (buf : Bytes) (p : Ptr) (q : Ioqueue) (s : Mem) (d : Dev) : Prop :=
  ∃ q', exec device (pipeWrite cur fd buf count) s d = .ok ((min count (ioqFree q) : Nat), setRing p q' s, d) ∧
    ringBytes q' = ringBytes q ++ slice buf 0 (min count (ioqFree q))

/-- `pipe_read` takes out as many bytes as there are and returns. -/
def ReadReturns (cur : Pid) (fd count : Nat) (buf : Bytes) (p : Ptr) (q : Ioqueue) (s : Mem) (d : Dev) : Prop :=
  ∃ q' buf', exec device (pipeRead cur fd buf count) s d =
    .ok (((min count (ringBytes q).length : Nat), buf'), setRing p q' s, d) ∧
    ringBytes q = slice buf' 0 (min count (ringBytes q).length) ++ ringBytes q'

section
variable {g fd count : Nat} {p : Ptr} {q : Ioqueue} {s : Mem} {d : Dev} {cur : Pid} {buf : Bytes}

/-- The length is what the ring holds, at every fill level and wherever the indices are. -/
theorem pipeRead_returns (h : PipeAt g p q s) (hd : Directed s cur fd g) (hfd : fd < maxFilesOpenPerProc) :
    ReadReturns cur fd count buf p q s d := by
  have hread : ∃ q' buf', exec device (pipeRead cur fd buf count) s d =
      .ok (((min (ioqLength q) count : Nat), buf'), setRing p q' s, d) ∧ (ringOf q').Ok bufsize ∧
      ringBytes q = slice buf' 0 (min (ioqLength q) count) ++ ringBytes q' := h.exec_pipeRead hd hfd
  obtain ⟨q', buf', he, -, hbytes⟩ := hread
  rw [Nat.min_comm, ← length_ringBytes] at he hbytes
  exact ⟨q', buf', he, hbytes⟩

/-- With room for all bytes they are what `pipe_write` counts. -/
theorem pipeRoom_of_free (h : PipeAt g p q s) (hc : count ≤ ioqFree q) : pipeRoom q count = min count (ioqFree q) := by
  have hlt := h.length_lt
  unfold ioqFree at hc ⊢
  unfold pipeRoom
  omega

theorem pipe_noWait_iff (h : PipeAt g p q s) (hd : Directed s cur fd g) (hfd : fd < maxFilesOpenPerProc) :
    WriteReturns cur fd count buf p q s d ∧ ReadReturns cur fd count buf p q s d ↔ count ≤ ioqFree q := by
  have hlt := h.length_lt
  obtain ⟨hroom, hfull⟩ := h.exec_pipeWrite buf count d hd hfd
  constructor
  · rintro ⟨⟨q', he, -⟩, -⟩
    by_contra hc
    rw [hfull (by unfold ioqFree at hc; unfold pipeRoom; omega)] at he
    cases he
  · intro hc
    refine ⟨?_, pipeRead_returns h hd hfd⟩
    have heq := pipeRoom_of_free h hc
    rw [heq] at hroom
    obtain ⟨q', he, -, hbytes⟩ := hroom (by unfold ioqFree at hc ⊢; omega)
    exact ⟨q', he, hbytes⟩

/-- Process 1 has an empty pipe on its standard output. -/
theorem pipe_noWait_iff_two : ∃ s d p, PipeAt 3 p ioqueueInit s ∧
    (WriteReturns 1 1 2 zeros p ioqueueInit s d ∧ ReadReturns 1 1 2 zeros p ioqueueInit s d ↔ 2 ≤ ioqFree ioqueueInit) := by
  obtain ⟨s₁, d₁, s, d, p, -, -, -, h, h₁, -⟩ := pipe_ready
  exact ⟨s, d, p, h, pipe_noWait_iff h h₁ (by decide)⟩

/-- A lone process that writes 64 bytes into its empty pipe sleeps for ever, after
63 of them. -/
theorem pipeWrite_sleeps : ∃ s₁ d₁ s d p, exec device (sysPipe 1) rootMem rootDev = .ok ((0, 3, 4), s₁, d₁) ∧
    Calls device RedirectOp.prog (fun _ _ _ => True) [.redirect 1 1 4, .redirect 1 0 3] s₁ d₁ s d ∧
    PipeAt 3 p ioqueueInit s ∧ Directed s 1 1 3 ∧ exec device (pipeWrite 1 1 zeros 64) s d = .error .hang ∧
    ¬ WriteReturns 1 1 64 zeros p ioqueueInit s d := by
  obtain ⟨s₁, d₁, s, d, p, hpipe, hset, -, h, h₁, -⟩ := pipe_ready
  have hhang := (h.exec_pipeWrite zeros 64 d h₁ (by decide)).2 (by decide)
  refine ⟨s₁, d₁, s, d, p, hpipe, hset, h, h₁, hhang, ?_⟩
  rintro ⟨q', he, -⟩
  rw [hhang] at he
  cases he

end

end Enix.Fs
