import Enix.Core.RingBuf
import Enix.Fs.Descriptors
import Enix.Fs.Read
import Enix.Userprog.Process

/-!
# Pipes on standard input and output

Processes whose descriptor 1 or 0 was redirected to a pipe write and read. Every
call leaves an event: the bytes that a write reports, or what a read returned and
the bytes in the pipe before and after it. `Fifo` is the law of a pipe.

* `exec_pipeWrite`, `exec_pipeRead`: what the two functions of `shell/pipe.c` do to
  the bytes in the pipe.
* `pipe_fifo`: `sys_read` on descriptor 0 calls `pipe_write`, so the law holds only
  for reads of nothing.
-/
set_option autoImplicit false

namespace Enix.Fs
open Enix.Core Enix.Kernel

/-- The ring of a pipe's page. -/
def ringOf (q : Ioqueue) : RingBuf UInt8 := ⟨q.buf, q.head, q.tail⟩

/-- The bytes in a ring, oldest first. -/
def ringBytes (q : Ioqueue) : List UInt8 := (ringOf q).contents bufsize

/-- The bytes in the pipe whose page is `p`. -/
def pipeBytes (p : Ptr) (s : Mem) : List UInt8 :=
  match s.pipes p with
  | some q => ringBytes q
  | none => []

/-- `n` bytes of a buffer from `k` on. -/
def slice (buf : Bytes) (k n : Nat) : List UInt8 := (List.range n).map fun j => buf (k + j)

/-- Slot `g` is a pipe whose page `p` has the ring `q`. -/
structure PipeAt (g : Nat) (p : Ptr) (q : Ioqueue) (s : Mem) : Prop where
  slot : g < maxFileOpen
  flag : (s.fileTable g).fdFlag = pipeFlag
  page : (s.fileTable g).fdInode = some p
  ring : s.pipes p = some q
  ok : (ringOf q).Ok bufsize

/-- The descriptor refers to slot `g`. -/
def Directed (s : Mem) (cur : Pid) (fd g : Nat) : Prop := ∃ t, s.tasks cur = some t ∧ t.fdTable fd = (g : Int)

def setRing (p : Ptr) (q : Ioqueue) (s : Mem) : Mem := { s with pipes := upd s.pipes p (some q) }

section
variable {g fd count n k : Nat} {p : Ptr} {q : Ioqueue} {s s' : Mem} {d d' : Dev} {cur : Pid} {buf : Bytes} {b : UInt8}

@[simp] theorem length_slice (buf : Bytes) (k n : Nat) : (slice buf k n).length = n := by simp [slice]

theorem slice_succ (buf : Bytes) (k n : Nat) : slice buf k (n + 1) = buf k :: slice buf (k + 1) n := by
  unfold slice
  rw [List.range_succ_eq_map, List.map_cons, List.map_map]
  congr 1
  refine List.map_congr_left fun j _ => ?_
  simp only [Function.comp_apply]
  congr 1
  omega

theorem length_ringBytes (q : Ioqueue) : (ringBytes q).length = ioqLength q := RingBuf.length_contents

theorem PipeAt.bytes (h : PipeAt g p q s) : pipeBytes p s = ringBytes q := by
  unfold pipeBytes
  rw [h.ring]

theorem PipeAt.length_lt (h : PipeAt g p q s) : ioqLength q < bufsize := RingBuf.used_lt h.ok

theorem PipeAt.setRing (h : PipeAt g p q s) {q' : Ioqueue} (hq : (ringOf q').Ok bufsize) :
    PipeAt g p q' (setRing p q' s) :=
  ⟨h.slot, h.flag, h.page, upd_self .., hq⟩

theorem setRing_setRing (p : Ptr) (q q' : Ioqueue) (s : Mem) : setRing p q' (setRing p q s) = setRing p q' s := by
  have hpipes : upd (upd s.pipes p (some q)) p (some q') = upd s.pipes p (some q') := by
    funext x
    by_cases hx : x = p
    · rw [hx, upd_self, upd_self]
    · rw [upd_ne hx, upd_ne hx, upd_ne hx]
  unfold Fs.setRing
  rw [hpipes]

theorem PipeAt.setRing_self (h : PipeAt g p q s) : Fs.setRing p q s = s := by
  have hpipes : upd s.pipes p (some q) = s.pipes := by
    funext x
    by_cases hx : x = p
    · rw [hx, upd_self, h.ring]
    · rw [upd_ne hx]
  unfold Fs.setRing
  rw [hpipes]

/-! ## The functions of a pipe -/

theorem exec_fdLocal2global (hd : Directed s cur fd g) (hfd : fd < maxFilesOpenPerProc) (hg : g < maxFileOpen) :
    exec device (fdLocal2global cur fd) s d = .ok (g, s, d) := by
  obtain ⟨t, ht, hi⟩ := hd
  unfold fdLocal2global
  rw [exec_bind_ok device (exec_runningThread ht)]
  dsimp only
  rw [if_pos hfd, hi, exec_assert_bind _ ⟨Int.natCast_nonneg g, Int.ofNat_lt.2 hg⟩, Int.toNat_natCast]
  rfl

theorem PipeAt.exec_isPipe (h : PipeAt g p q s) (hd : Directed s cur fd g) (hfd : fd < maxFilesOpenPerProc) :
    exec device (isPipe cur fd) s d = .ok (true, s, d) := by
  unfold isPipe
  rw [exec_bind_ok device (exec_fdLocal2global hd hfd h.slot), exec_readM, decide_eq_true h.flag]

theorem PipeAt.exec_derefPipe (h : PipeAt g p q s) : exec device (derefPipe g) s d = .ok ((p, q), s, d) := by
  unfold derefPipe fdInode
  rw [bind_assoc, exec_readM_bind, h.page, exec_pure_bind, exec_readM_bind, h.ring]
  rfl

/-- The ring with one more byte. -/
def putByte (q : Ioqueue) (b : UInt8) : Ioqueue := { q with buf := upd q.buf q.head b, head := nextPos q.head }

theorem PipeAt.exec_ioqPutchar (h : PipeAt g p q s) (hroom : ioqLength q + 1 < bufsize) :
    exec device (ioqPutchar g b) s d = .ok ((), Fs.setRing p (putByte q b) s, d) := by
  have hne : ¬ nextPos q.head = q.tail := by
    intro he
    have hfull := (RingBuf.used_full h.ok).2 he
    have heq : (ringOf q).used bufsize = ioqLength q := rfl
    omega
  unfold ioqPutchar
  rw [exec_bind_ok device h.exec_derefPipe]
  dsimp only
  rw [if_neg hne]
  rfl

theorem PipeAt.exec_ioqPutchar_full (h : PipeAt g p q s) (hfull : ioqLength q + 1 = bufsize) :
    exec device (ioqPutchar g b) s d = .error .hang := by
  have he : nextPos q.head = q.tail := (RingBuf.used_full h.ok).1 hfull
  unfold ioqPutchar
  rw [exec_bind_ok device h.exec_derefPipe]
  dsimp only
  rw [if_pos he]
  rfl

theorem ioqLength_putByte (hok : (ringOf q).Ok bufsize) (hroom : ioqLength q + 1 < bufsize) :
    ioqLength (putByte q b) = ioqLength q + 1 := RingBuf.used_push hok hroom b

/-- While there is room the bytes go in, in order. -/
theorem PipeAt.exec_pipeWriteLoop (h : PipeAt g p q s) (buf : Bytes) (k : Nat) (d : Dev) (hroom : ioqLength q + n < bufsize) :
    ∃ q', exec device (pipeWriteLoop g buf n k) s d = .ok ((), Fs.setRing p q' s, d) ∧ (ringOf q').Ok bufsize ∧
      ringBytes q' = ringBytes q ++ slice buf k n := by
  induction n generalizing q s k with
  | zero =>
    refine ⟨q, ?_, h.ok, by simp [slice]⟩
    rw [h.setRing_self]
    rfl
  | succ n ih =>
    have hput : (ringOf (putByte q (buf k))).Ok bufsize := RingBuf.Ok.push h.ok (buf k)
    have hlen : ioqLength (putByte q (buf k)) = ioqLength q + 1 := ioqLength_putByte h.ok (by omega)
    obtain ⟨q', he, hok, hbytes⟩ := ih (h.setRing hput) (k + 1) (by omega)
    refine ⟨q', ?_, hok, ?_⟩
    · unfold pipeWriteLoop
      rw [exec_bind_ok device (h.exec_ioqPutchar (by omega)), he, setRing_setRing]
    · have hone : ringBytes (putByte q (buf k)) = ringBytes q ++ [buf k] :=
        RingBuf.contents_push h.ok (show (ringOf q).used bufsize + 1 < bufsize from by
          have heq : (ringOf q).used bufsize = ioqLength q := rfl
          omega) (buf k)
      rw [hbytes, hone, slice_succ, List.append_assoc, List.singleton_append]

/-- Without room the writer goes to sleep. -/
theorem PipeAt.exec_pipeWriteLoop_full (h : PipeAt g p q s) (hroom : bufsize ≤ ioqLength q + n) :
    exec device (pipeWriteLoop g buf n k) s d = .error .hang := by
  induction n generalizing q s k with
  | zero =>
    have hlt := h.length_lt
    omega
  | succ n ih =>
    unfold pipeWriteLoop
    by_cases hfull : ioqLength q + 1 = bufsize
    · exact exec_bind_error device (h.exec_ioqPutchar_full hfull)
    · have hlt := h.length_lt
      have hput : (ringOf (putByte q (buf k))).Ok bufsize := RingBuf.Ok.push h.ok (buf k)
      have hlen : ioqLength (putByte q (buf k)) = ioqLength q + 1 := ioqLength_putByte h.ok (by omega)
      rw [exec_bind_ok device (h.exec_ioqPutchar (by omega))]
      exact ih (h.setRing hput) (by omega)

/-- What `pipe_write` writes at most. -/
def pipeRoom (q : Ioqueue) (count : Nat) : Nat := min (bufsize - ioqLength q) count

/-- Bytes for which there is room go in; a writer that would fill the ring sleeps. -/
theorem PipeAt.exec_pipeWrite (h : PipeAt g p q s) (buf : Bytes) (count : Nat) (d : Dev) (hd : Directed s cur fd g)
    (hfd : fd < maxFilesOpenPerProc) :
    (ioqLength q + pipeRoom q count < bufsize → ∃ q', exec device (pipeWrite cur fd buf count) s d =
      .ok ((pipeRoom q count : Int), Fs.setRing p q' s, d) ∧ (ringOf q').Ok bufsize ∧
      ringBytes q' = ringBytes q ++ slice buf 0 (pipeRoom q count)) ∧
    (bufsize ≤ ioqLength q + pipeRoom q count → exec device (pipeWrite cur fd buf count) s d = .error .hang) := by
  have hrun : exec device (pipeWrite cur fd buf count) s d = exec device (do
      pipeWriteLoop g buf (pipeRoom q count) 0
      pure (pipeRoom q count : Int) : K Int) s d := by
    unfold pipeWrite
    rw [exec_bind_ok device (exec_fdLocal2global hd hfd h.slot), exec_bind_ok device h.exec_derefPipe]
    rfl
  rw [hrun]
  constructor
  · intro hroom
    obtain ⟨q', he, hok, hbytes⟩ := h.exec_pipeWriteLoop buf 0 d hroom
    exact ⟨q', by rw [exec_bind_ok device he]; rfl, hok, hbytes⟩
  · intro hfull
    exact exec_bind_error device (h.exec_pipeWriteLoop_full hfull)

theorem PipeAt.exec_ioqGetchar (h : PipeAt g p q s) (hne : ioqLength q ≠ 0) :
    exec device (ioqGetchar g) s d = .ok (q.buf q.tail, Fs.setRing p { q with tail := nextPos q.tail } s, d) := by
  have hht : ¬ q.head = q.tail := fun he => hne ((RingBuf.used_eq_zero h.ok).2 he)
  unfold ioqGetchar
  rw [exec_bind_ok device h.exec_derefPipe]
  dsimp only
  rw [if_neg hht]
  rfl

/-- The bytes come out in order; what is in the buffer before `k` stays. -/
theorem PipeAt.exec_pipeReadLoop (h : PipeAt g p q s) (buf : Bytes) (k : Nat) (d : Dev) (hn : n ≤ ioqLength q) :
    ∃ q' buf', exec device (pipeReadLoop g n k buf) s d = .ok (buf', Fs.setRing p q' s, d) ∧ (ringOf q').Ok bufsize ∧
      slice buf' k n ++ ringBytes q' = ringBytes q ∧ ∀ j, j < k → buf' j = buf j := by
  induction n generalizing q s k buf with
  | zero =>
    refine ⟨q, buf, ?_, h.ok, by simp [slice], fun _ _ => rfl⟩
    rw [h.setRing_self]
    rfl
  | succ n ih =>
    have hne : ioqLength q ≠ 0 := by omega
    have hht : (ringOf q).head ≠ (ringOf q).tail := fun he => hne ((RingBuf.used_eq_zero h.ok).2 he)
    have hpop : (ringOf { q with tail := nextPos q.tail }).Ok bufsize := RingBuf.Ok.pop h.ok
    have hlen : ioqLength { q with tail := nextPos q.tail } + 1 = ioqLength q := RingBuf.used_pop h.ok hht
    obtain ⟨q', buf', he, hok, hbytes, hkeep⟩ :=
      ih (h.setRing hpop) (upd buf k (q.buf q.tail)) (k + 1) (by omega)
    have hk : buf' k = q.buf q.tail := by rw [hkeep k (by omega), upd_self]
    have hhead : ringBytes q = q.buf q.tail :: ringBytes { q with tail := nextPos q.tail } :=
      RingBuf.contents_pop h.ok hht
    refine ⟨q', buf', ?_, hok, ?_, fun j hj => ?_⟩
    · unfold pipeReadLoop
      rw [exec_bind_ok device (h.exec_ioqGetchar hne), he, setRing_setRing]
    · rw [slice_succ, List.cons_append, hbytes, hk, hhead]
    · rw [hkeep j (by omega), upd_ne (by omega)]

/-- `pipe_read` takes out what it returns, as many bytes as there are and are asked for. -/
theorem PipeAt.exec_pipeRead (h : PipeAt g p q s) (hd : Directed s cur fd g) (hfd : fd < maxFilesOpenPerProc) :
    ∃ q' buf', exec device (pipeRead cur fd buf count) s d =
      .ok (((min (ioqLength q) count : Nat), buf'), Fs.setRing p q' s, d) ∧ (ringOf q').Ok bufsize ∧
      ringBytes q = slice buf' 0 (min (ioqLength q) count) ++ ringBytes q' := by
  obtain ⟨q', buf', he, hok, hbytes, -⟩ :=
    h.exec_pipeReadLoop buf 0 d (Nat.min_le_left (ioqLength q) count)
  refine ⟨q', buf', ?_, hok, hbytes.symm⟩
  unfold pipeRead
  rw [exec_bind_ok device (exec_fdLocal2global hd hfd h.slot), exec_bind_ok device h.exec_derefPipe,
    exec_bind_ok device he]
  rfl

theorem PipeAt.exec_sysWrite (h : PipeAt g p q s) (hd : Directed s cur 1 g) :
    exec device (sysWrite cur 1 buf count) s d = exec device (pipeWrite cur 1 buf count) s d := by
  unfold sysWrite
  rw [if_neg (by decide)]
  have hpipe : exec device (isPipe cur (1 : Int).toNat) s d = .ok (true, s, d) := h.exec_isPipe hd (by decide)
  rw [exec_bind_ok device hpipe]
  rfl

theorem PipeAt.exec_sysRead {kbd : Bytes} (h : PipeAt g p q s) (hd : Directed s cur 0 g) :
    exec device (sysRead kbd cur 0 buf count) s d = exec device (do
      let ret ← pipeWrite cur 0 buf count
      pure (ret, buf) : K (Int × Bytes)) s d := by
  unfold sysRead
  rw [if_neg (by decide), if_pos rfl, exec_bind_ok device (h.exec_isPipe hd (by decide))]
  rfl

end

/-! ## Events -/

/-- A write reports bytes; a read of `count` bytes returns bytes, and changes the pipe. -/
inductive PipeEvent where
  | wrote (bytes : List UInt8)
  | read (count : Nat) (bytes before after : List UInt8)

/-- What the reads returned. -/
def readBytes : List PipeEvent → List UInt8
  | [] => []
  | .wrote _ :: evs => readBytes evs
  | .read _ bytes _ _ :: evs => bytes ++ readBytes evs

/-- What the writes reported. -/
def wroteBytes : List PipeEvent → List UInt8
  | [] => []
  | .wrote bytes :: evs => bytes ++ wroteBytes evs
  | .read _ _ _ _ :: evs => wroteBytes evs

/-- A read takes out what it returns. -/
def PipeEvent.Lawful : PipeEvent → Prop
  | .wrote _ => True
  | .read _ bytes before after => before = bytes ++ after

/-- The bytes come out as they went in, and a read only takes out what it returns. -/
def Fifo (evs : List PipeEvent) : Prop := readBytes evs <+: wroteBytes evs ∧ ∀ ev ∈ evs, ev.Lawful

/-- `sys_write(1, ..)` or `sys_read(0, ..)` on the pipe at slot `g`, by a process whose
descriptor was redirected there. A call that sleeps has put `n` bytes and waits in
`ioq_putchar`. -/
inductive PipeStep (kbd : Bytes) (g : Nat) (p : Ptr) : Mem → Dev → PipeEvent → Mem → Dev → Prop where
  | write {s s' : Mem} {d d' : Dev} {cur : Pid} {buf : Bytes} {count : Nat} {r : Int} : Directed s cur 1 g →
    exec device (sysWrite cur 1 buf count) s d = .ok (r, s', d') →
    PipeStep kbd g p s d (.wrote (slice buf 0 r.toNat)) s' d'
  | read {s s' : Mem} {d d' : Dev} {cur : Pid} {buf buf' : Bytes} {count : Nat} {r : Int} : Directed s cur 0 g →
    exec device (sysRead kbd cur 0 buf count) s d = .ok ((r, buf'), s', d') →
    PipeStep kbd g p s d (.read count (slice buf' 0 r.toNat) (pipeBytes p s) (pipeBytes p s')) s' d'
  | writeSleeps {s s' : Mem} {d d' : Dev} {cur : Pid} {buf : Bytes} {count n : Nat} : Directed s cur 1 g →
    exec device (sysWrite cur 1 buf count) s d = .error .hang → n < count →
    exec device (pipeWriteLoop g buf n 0) s d = .ok ((), s', d') →
    exec device (ioqPutchar g (buf n)) s' d' = .error .hang → PipeStep kbd g p s d (.wrote []) s' d'
  | readSleeps {s s' : Mem} {d d' : Dev} {cur : Pid} {buf : Bytes} {count n : Nat} : Directed s cur 0 g →
    exec device (sysRead kbd cur 0 buf count) s d = .error .hang → n < count →
    exec device (pipeWriteLoop g buf n 0) s d = .ok ((), s', d') →
    exec device (ioqPutchar g (buf n)) s' d' = .error .hang →
    PipeStep kbd g p s d (.read count [] (pipeBytes p s) (pipeBytes p s')) s' d'

/-- Calls by any processes, one after the other. -/
inductive PipeRun (kbd : Bytes) (g : Nat) (p : Ptr) : List PipeEvent → Mem → Dev → Mem → Dev → Prop where
  | nil (s : Mem) (d : Dev) : PipeRun kbd g p [] s d s d
  | cons {ev : PipeEvent} {evs : List PipeEvent} {s s₁ s' : Mem} {d d₁ d' : Dev} :
    PipeStep kbd g p s d ev s₁ d₁ → PipeRun kbd g p evs s₁ d₁ s' d' → PipeRun kbd g p (ev :: evs) s d s' d'

/-- A read for nothing, or of a full pipe: it sleeps for ever. -/
def PipeEvent.Idle : PipeEvent → Prop
  | .wrote _ => True
  | .read count _ before _ => count = 0 ∨ before.length + 1 = bufsize

section
variable {g count n : Nat} {p : Ptr} {q : Ioqueue} {s s' : Mem} {d d' : Dev} {cur : Pid} {buf kbd : Bytes}
  {ev : PipeEvent} {evs : List PipeEvent}

/-- Where a writer sleeps, the bytes for which there is room are in the ring. -/
theorem PipeAt.sleeps (h : PipeAt g p q s) (he : exec device (pipeWriteLoop g buf n 0) s d = .ok ((), s', d'))
    (hfull : exec device (ioqPutchar g (buf n)) s' d' = .error .hang) :
    ∃ q', PipeAt g p q' s' ∧ s'.tasks = s.tasks ∧ ringBytes q' = ringBytes q ++ slice buf 0 n ∧
      ioqLength q + n + 1 = bufsize := by
  have hroom : ioqLength q + n < bufsize := by
    by_contra hge
    rw [h.exec_pipeWriteLoop_full (by omega)] at he
    cases he
  obtain ⟨q', he', hok, hbytes⟩ := h.exec_pipeWriteLoop buf 0 d hroom
  rw [he'] at he
  cases he
  have h' := h.setRing hok
  refine ⟨q', h', rfl, hbytes, ?_⟩
  have hlen : ioqLength q' = ioqLength q + n := by
    rw [← length_ringBytes, hbytes, List.length_append, length_ringBytes, length_slice]
  by_contra hne
  rw [h'.exec_ioqPutchar (by omega)] at hfull
  cases hfull

/-- A step keeps the pipe, and a read is lawful only if it is idle. -/
theorem PipeAt.step (h : PipeAt g p q s) (hstep : PipeStep kbd g p s d ev s' d') :
    ∃ q', PipeAt g p q' s' ∧ s'.tasks = s.tasks ∧ (ev.Lawful ↔ ev.Idle) ∧ (ev.Idle → readBytes [ev] = []) := by
  cases hstep with
  | write hd he =>
    rename_i cur buf count r
    rw [h.exec_sysWrite hd] at he
    obtain ⟨hroom, hfull⟩ := h.exec_pipeWrite buf count d hd (by decide)
    by_cases hlt : ioqLength q + pipeRoom q count < bufsize
    · obtain ⟨q', he', hok, -⟩ := hroom hlt
      rw [he'] at he
      cases he
      exact ⟨q', h.setRing hok, rfl, Iff.rfl, fun _ => rfl⟩
    · rw [hfull (by omega)] at he
      cases he
  | writeSleeps hd _ _ he hfull =>
    obtain ⟨q', h', htasks, -⟩ := h.sleeps he hfull
    exact ⟨q', h', htasks, Iff.rfl, fun _ => rfl⟩
  | read hd he =>
    rename_i cur buf buf' count r
    rw [h.exec_sysRead hd] at he
    obtain ⟨hroom, hfull⟩ := h.exec_pipeWrite buf count d hd (by decide)
    by_cases hlt : ioqLength q + pipeRoom q count < bufsize
    · obtain ⟨q', he', hok, hbytes⟩ := hroom hlt
      rw [exec_bind_ok device he'] at he
      cases he
      have h' := h.setRing hok
      have hzero : count = 0 ∨ ioqLength q + 1 = bufsize → pipeRoom q count = 0 := by
        intro hor
        unfold pipeRoom at hlt ⊢
        omega
      refine ⟨q', h', rfl, ?_, fun hidle => ?_⟩
      · change pipeBytes p s = slice buf 0 (pipeRoom q count : Int).toNat ++ pipeBytes p (Fs.setRing p q' s) ↔
          (count = 0 ∨ (pipeBytes p s).length + 1 = bufsize)
        rw [h.bytes, h'.bytes, hbytes, Int.toNat_natCast, length_ringBytes]
        constructor
        · intro heq
          have hlen := congrArg List.length heq
          simp only [List.length_append, length_slice, length_ringBytes] at hlen
          have hlt' := h.length_lt
          unfold pipeRoom at hlen hlt
          omega
        · intro hor
          rw [hzero hor]
          simp [slice]
      · have hor : count = 0 ∨ ioqLength q + 1 = bufsize := by
          have hidle' : count = 0 ∨ (pipeBytes p s).length + 1 = bufsize := hidle
          rwa [h.bytes, length_ringBytes] at hidle'
        simp [readBytes, hzero hor, slice]
    · rw [exec_bind_error device (hfull (by omega))] at he
      cases he
  | readSleeps hd hhang hn he hfull =>
    rename_i cur buf count n
    obtain ⟨q', h', htasks, hbytes, hlen⟩ := h.sleeps he hfull
    refine ⟨q', h', htasks, ?_, fun _ => rfl⟩
    change pipeBytes p s = [] ++ pipeBytes p s' ↔ (count = 0 ∨ (pipeBytes p s).length + 1 = bufsize)
    rw [h.bytes, h'.bytes, hbytes, length_ringBytes, List.nil_append]
    constructor
    · intro heq
      have hlen' := congrArg List.length heq
      simp only [List.length_append, length_slice] at hlen'
      omega
    · intro hor
      have hzero : n = 0 := by omega
      rw [hzero]
      simp [slice]

theorem PipeAt.run (h : PipeAt g p q s) (hrun : PipeRun kbd g p evs s d s' d') :
    (∀ ev ∈ evs, ev.Lawful ↔ ev.Idle) ∧ ((∀ ev ∈ evs, ev.Idle) → readBytes evs = []) := by
  induction hrun generalizing q with
  | nil => exact ⟨fun ev hev => (nomatch hev), fun _ => rfl⟩
  | @cons ev evs s s₁ s' d d₁ d' hstep _ ih =>
    obtain ⟨q', h', -, hlaw, hnone⟩ := h.step hstep
    obtain ⟨hlaws, hnones⟩ := ih h'
    refine ⟨fun e he => ?_, fun hidle => ?_⟩
    · rcases List.mem_cons.1 he with rfl | he
      · exact hlaw
      · exact hlaws e he
    · have hhead := hnone (hidle _ (List.mem_cons_self ..))
      have htail := hnones fun e he => hidle e (List.mem_cons_of_mem _ he)
      cases ev with
      | wrote bytes => exact htail
      | read count bytes before after =>
        have hb : bytes ++ [] = [] := hhead
        change bytes ++ readBytes evs = []
        rw [htail, hb]

/-! ## How a pipe gets there -/

/-- A child is born, or a descriptor is redirected. -/
inductive RedirectOp where
  | fork (cur child : Pid)
  | redirect (cur : Pid) (oldLocalFd newLocalFd : Nat)

def RedirectOp.prog : RedirectOp → K Int
  | .fork cur child => sysFork cur child
  | .redirect cur oldLocalFd newLocalFd => do
    sysFdRedirect cur oldLocalFd newLocalFd
    pure 0

/-- The rings, and what the slots are, stay. -/
structure SamePipes (s s' : Mem) : Prop where
  pipes : s'.pipes = s.pipes
  slots : ∀ i, (s'.fileTable i).fdFlag = (s.fileTable i).fdFlag ∧ (s'.fileTable i).fdInode = (s.fileTable i).fdInode

theorem SamePipes.refl (s : Mem) : SamePipes s s := ⟨rfl, fun _ => ⟨rfl, rfl⟩⟩

theorem SamePipes.trans (s₁ s₂ s₃ : Mem) (h₁ : SamePipes s₁ s₂) (h₂ : SamePipes s₂ s₃) : SamePipes s₁ s₃ :=
  ⟨h₂.pipes.trans h₁.pipes, fun i => ⟨(h₂.slots i).1.trans (h₁.slots i).1, (h₂.slots i).2.trans (h₁.slots i).2⟩⟩

theorem PipeAt.samePipes (h : PipeAt g p q s) (hs : SamePipes s s') : PipeAt g p q s' :=
  ⟨h.slot, (hs.slots g).1.trans h.flag, (hs.slots g).2.trans h.page, hs.pipes ▸ h.ring, h.ok⟩

theorem guar_bind {α β : Type} {m : K α} {f : α → K β} (hm : Guar SamePipes m) (hf : ∀ a, Guar SamePipes (f a)) :
    Guar SamePipes (m >>= f) := Guar.bind SamePipes.trans hm hf

theorem guar_runningThread (cur : Pid) : Guar SamePipes (runningThread cur) := by
  refine guar_bind (Guar.readM SamePipes.refl _) fun t => ?_
  cases t with
  | none => exact Guar.stop _
  | some t => exact Guar.pure SamePipes.refl t

theorem guar_setFd (cur : Pid) (fd : Nat) (v : Int) : Guar SamePipes (setFd cur fd v) :=
  guar_bind (guar_runningThread cur) fun _ => Guar.modifyM fun _ => ⟨rfl, fun _ => ⟨rfl, rfl⟩⟩

theorem guar_sysFdRedirect (cur : Pid) (oldLocalFd newLocalFd : Nat) :
    Guar SamePipes (sysFdRedirect cur oldLocalFd newLocalFd) := by
  refine guar_bind (guar_runningThread cur) fun t => Guar.ite (Guar.stop _) (Guar.ite (guar_setFd _ _ _) ?_)
  exact Guar.ite (guar_setFd _ _ _) (Guar.stop _)

theorem guar_isPipe (cur : Pid) (fd : Nat) : Guar SamePipes (isPipe cur fd) := by
  refine guar_bind (guar_bind (guar_runningThread cur) fun t => Guar.ite ?_ (Guar.stop _)) fun i =>
    Guar.readM SamePipes.refl _
  exact guar_bind (Guar.assert SamePipes.refl _) fun _ => Guar.pure SamePipes.refl _

theorem samePipes_modifyFile (i : Nat) {f : File → File}
    (hf : ∀ x, (f x).fdFlag = x.fdFlag ∧ (f x).fdInode = x.fdInode) : Guar SamePipes (modifyFile i f) := by
  refine Guar.modifyM fun s => ⟨rfl, fun j => ?_⟩
  change (upd s.fileTable i (f (s.fileTable i)) j).fdFlag = _ ∧ (upd s.fileTable i (f (s.fileTable i)) j).fdInode = _
  by_cases hj : j = i
  · rw [hj, upd_self]
    exact hf _
  · rw [upd_ne hj]
    exact ⟨rfl, rfl⟩

theorem guar_modifyFd (i : Nat) (f : Inode → Inode) : Guar SamePipes (modifyFd i f) := by
  refine guar_bind (guar_bind (Guar.readM SamePipes.refl _) fun o => ?_) fun p => ?_
  · cases o with
    | none => exact Guar.stop _
    | some p => exact Guar.pure SamePipes.refl p
  · refine guar_bind (guar_bind (Guar.readM SamePipes.refl _) fun o => ?_) fun x =>
      Guar.modifyM fun _ => ⟨rfl, fun _ => ⟨rfl, rfl⟩⟩
    cases o with
    | none => exact Guar.stop _
    | some x => exact Guar.pure SamePipes.refl x

theorem guar_raiseCnt (cur : Pid) (fd : Nat) (globalFd : Int) : Guar SamePipes (raiseCnt cur fd globalFd) := by
  refine Guar.ite (guar_bind (guar_isPipe cur fd) fun b => Guar.ite ?_ (guar_modifyFd _ _)) (Guar.pure SamePipes.refl _)
  exact samePipes_modifyFile _ fun _ => ⟨rfl, rfl⟩

theorem guar_updateInodeOpenCnts (cur child : Pid) (n fd : Nat) :
    Guar SamePipes (updateInodeOpenCnts cur child n fd) := by
  induction n generalizing fd with
  | zero => exact Guar.pure SamePipes.refl _
  | succ n ih =>
    refine guar_bind (guar_runningThread child) fun t => guar_bind (Guar.assert SamePipes.refl _) fun _ => ?_
    exact guar_bind (guar_raiseCnt _ _ _) fun _ => ih (fd + 1)

theorem guar_redirectOp (op : RedirectOp) : Guar SamePipes op.prog := by
  cases op with
  | fork cur child =>
    refine guar_bind (guar_runningThread cur) fun t => ?_
    refine guar_bind (Guar.modifyM fun _ => ⟨rfl, fun _ => ⟨rfl, rfl⟩⟩) fun _ => ?_
    exact guar_bind (guar_updateInodeOpenCnts _ _ _ _) fun _ => Guar.pure SamePipes.refl _
  | redirect cur oldLocalFd newLocalFd =>
    exact guar_bind (guar_sysFdRedirect _ _ _) fun _ => Guar.pure SamePipes.refl _

theorem guar_pcbFdInstall (cur : Pid) (globalFd : Nat) : Guar SamePipes (pcbFdInstall cur globalFd) := by
  refine guar_bind (guar_runningThread cur) fun t => ?_
  cases freeFdFrom t.fdTable (maxFilesOpenPerProc - 3) 3 with
  | none => exact Guar.pure SamePipes.refl _
  | some fd => exact guar_bind (guar_setFd _ _ _) fun _ => Guar.pure SamePipes.refl _

/-- `sys_pipe` leaves an empty pipe in the slot that it found. -/
theorem sysPipe_pipeAt {fds : Int × Int} (hg : freeSlotFrom s.fileTable (maxFileOpen - 3) 3 = some g)
    (he : exec device (sysPipe cur) s d = .ok ((0, fds), s', d')) : ∃ p, PipeAt g p ioqueueInit s' := by
  obtain ⟨-, hlt, -⟩ := freeSlotFrom_some _ hg
  have hslot : g < maxFileOpen := by
    unfold maxFileOpen at hlt ⊢
    omega
  unfold sysPipe getFreeSlotInGlobal at he
  rw [exec_readM_bind, hg] at he
  obtain ⟨page, s₁, d₁, hm, he⟩ := (exec_bind_eq_ok device).1 he
  obtain ⟨_, s₂, d₂, hf, he⟩ := (exec_bind_eq_ok device).1 he
  cases page with
  | none => cases he
  | some p =>
    unfold modifyFile at hf he
    rw [exec_modifyM] at hf
    cases hf
    rw [exec_modifyM_bind, exec_modifyM_bind] at he
    obtain ⟨fd0, s₃, d₃, h0, he⟩ := (exec_bind_eq_ok device).1 he
    obtain ⟨fd1, s₄, d₄, h1, he⟩ := (exec_bind_eq_ok device).1 he
    cases he
    have hmade : PipeAt g p ioqueueInit { s₁ with
        fileTable := upd (upd s₁.fileTable g { s₁.fileTable g with fdInode := some p }) g
          { upd s₁.fileTable g { s₁.fileTable g with fdInode := some p } g with fdFlag := pipeFlag, fdPos := 2 }
        pipes := upd s₁.pipes p (some ioqueueInit) } :=
      ⟨hslot, by simp, by simp, upd_self .., ⟨by decide, by decide⟩⟩
    refine ⟨p, (hmade.samePipes (exec_guar SamePipes.trans device (guar_pcbFdInstall cur g) h0)).samePipes ?_⟩
    exact exec_guar SamePipes.trans device (guar_pcbFdInstall cur g) h1

/-- A pipe that was made by `sys_pipe` and put on standard output and input of any
processes obeys the law if and only if no read asks for anything, but for reads of a full
pipe, which never return. -/
theorem pipe_fifo {fds : Int × Int} {ops : List RedirectOp} {s₀ s₁ s₂ : Mem} {d₀ d₁ d₂ : Dev}
    (hg : freeSlotFrom s₀.fileTable (maxFileOpen - 3) 3 = some g)
    (hpipe : exec device (sysPipe cur) s₀ d₀ = .ok ((0, fds), s₁, d₁))
    (hset : Calls device RedirectOp.prog (fun _ _ _ => True) ops s₁ d₁ s₂ d₂)
    (hp : (s₁.fileTable g).fdInode = some p) (hrun : PipeRun kbd g p evs s₂ d₂ s' d') :
    Fifo evs ↔ ∀ ev ∈ evs, ev.Idle := by
  obtain ⟨p', h₁⟩ := sysPipe_pipeAt hg hpipe
  have hpp : p' = p := by
    have hp' := h₁.page
    rw [hp] at hp'
    cases hp'
    rfl
  rw [hpp] at h₁
  have h₂ : PipeAt g p ioqueueInit s₂ := by
    refine hset.invariant (I := fun s _ => PipeAt g p ioqueueInit s) (fun op s d _ s' d' h _ he => ?_) h₁
    exact h.samePipes (exec_guar SamePipes.trans device (guar_redirectOp op) he)
  obtain ⟨hlaw, hnone⟩ := h₂.run hrun
  constructor
  · intro hf ev hev
    exact (hlaw ev hev).1 (hf.2 ev hev)
  · intro hidle
    refine ⟨?_, fun ev hev => (hlaw ev hev).2 (hidle ev hev)⟩
    rw [hnone hidle]
    exact List.nil_prefix

/-- A pipe of process 1, on its standard output and input. -/
theorem pipe_ready : ∃ s₁ d₁ s₂ d₂ p, exec device (sysPipe 1) rootMem rootDev = .ok ((0, 3, 4), s₁, d₁) ∧
    Calls device RedirectOp.prog (fun _ _ _ => True) [.redirect 1 1 4, .redirect 1 0 3] s₁ d₁ s₂ d₂ ∧
    (s₁.fileTable 3).fdInode = some p ∧ PipeAt 3 p ioqueueInit s₂ ∧ Directed s₂ 1 1 3 ∧ Directed s₂ 1 0 3 := by
  refine ⟨_, _, _, _, _, rfl, .cons trivial rfl (.cons trivial rfl (.nil _ _)), rfl, ?_, ⟨_, rfl, rfl⟩, ⟨_, rfl, rfl⟩⟩
  exact ⟨by decide, rfl, rfl, rfl, by decide, by decide⟩

/-- A write of 'a' and a read of one byte into a buffer that holds 'x'. -/
theorem write_then_read (kbd : Bytes) (d : Dev) (h : PipeAt g p ioqueueInit s) (h₁ : Directed s cur 1 g) (h₀ : Directed s cur 0 g) :
    ∃ s' d', PipeRun kbd g p [.wrote [97], .read 1 [120] [97] [97, 120]] s d s' d' := by
  obtain ⟨q₁, hw, hok₁, hb₁⟩ := (h.exec_pipeWrite (fun _ => 97) 1 d h₁ (by decide)).1 (by decide)
  have hs₁ := h.setRing hok₁
  have hlen : ioqLength q₁ = 1 := by
    rw [← length_ringBytes, hb₁]
    rfl
  have hroom : pipeRoom q₁ 1 = 1 := by
    unfold pipeRoom
    rw [hlen]
    rfl
  have hd₀ : Directed (Fs.setRing p q₁ s) cur 0 g := h₀
  obtain ⟨q₂, hr, hok₂, hb₂⟩ := (hs₁.exec_pipeWrite (fun _ => 120) 1 d hd₀ (by decide)).1 (by
    rw [hlen, hroom]
    decide)
  have hwrite : PipeStep kbd g p s d (.wrote [97]) (Fs.setRing p q₁ s) d :=
    .write h₁ ((h.exec_sysWrite h₁).trans hw)
  have hread : PipeStep kbd g p (Fs.setRing p q₁ s) d (.read 1 [120] [97] [97, 120])
      (Fs.setRing p q₂ (Fs.setRing p q₁ s)) d := by
    have he : exec device (sysRead kbd cur 0 (fun _ => 120) 1) (Fs.setRing p q₁ s) d =
        .ok ((1, fun _ => 120), Fs.setRing p q₂ (Fs.setRing p q₁ s), d) := by
      rw [hs₁.exec_sysRead hd₀, exec_bind_ok device hr, hroom]
      rfl
    have hstep := PipeStep.read (p := p) hd₀ he
    rw [hs₁.bytes, (hs₁.setRing hok₂).bytes, hb₂, hb₁, hroom] at hstep
    exact hstep
  exact ⟨_, _, .cons hwrite (.cons hread (.nil _ _))⟩

theorem pipe_fifo_two : ∃ s₂ d₂ s' d' p, PipeRun zeros 3 p [.wrote [97], .read 1 [120] [97] [97, 120]] s₂ d₂ s' d' ∧
    (Fifo [.wrote [97], .read 1 [120] [97] [97, 120]] ↔
      ∀ ev ∈ [PipeEvent.wrote [97], .read 1 [120] [97] [97, 120]], ev.Idle) := by
  obtain ⟨s₁, d₁, s₂, d₂, p, hpipe, hset, hp, h, h₁, h₀⟩ := pipe_ready
  obtain ⟨s', d', hrun⟩ := write_then_read zeros d₂ h h₁ h₀
  exact ⟨s₂, d₂, s', d', p, hrun, pipe_fifo (by decide) hpipe hset hp hrun⟩

/-- Process 1 writes 'a' to its pipe and reads one byte: it gets what its buffer held
before, and that byte is in the pipe behind the 'a'. -/
theorem read_writes : ∃ s₁ d₁ s₂ d₂ s' d' p evs, exec device (sysPipe 1) rootMem rootDev = .ok ((0, 3, 4), s₁, d₁) ∧
    Calls device RedirectOp.prog (fun _ _ _ => True) [.redirect 1 1 4, .redirect 1 0 3] s₁ d₁ s₂ d₂ ∧
    (s₁.fileTable 3).fdInode = some p ∧ PipeRun zeros 3 p evs s₂ d₂ s' d' ∧ ¬ Fifo evs := by
  obtain ⟨s₁, d₁, s₂, d₂, p, hpipe, hset, hp, h, h₁, h₀⟩ := pipe_ready
  obtain ⟨s', d', hrun⟩ := write_then_read zeros d₂ h h₁ h₀
  refine ⟨s₁, d₁, s₂, d₂, s', d', p, _, hpipe, hset, hp, hrun, fun hf => ?_⟩
  simp [Fifo, readBytes, wroteBytes] at hf

end

end Enix.Fs
