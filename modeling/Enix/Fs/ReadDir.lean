import Enix.Fs.DeleteEntry

/-!
# Reading a directory (`fs/dir.c:491-552`, `fs/fs.c:992-1006`)

`dir_read` goes through the blocks from the first one on in each call. It knows its
place by the live entries that it passes: `dir_pos` is their number, times the size of
an entry. What ends the loop over the blocks is `i_size`, not the number of blocks.

* `exec_dirRead`: a call returns the entry at its position, or NULL behind the last one.
* `dirRead_run`: the calls behind `sys_rewinddir`.
-/
set_option autoImplicit false

namespace Enix.Fs
open Enix.Core Enix.Kernel

/-- `struct dir` with its read position.
mirrors src/fs/dir.h:12-17 -/
structure DirStream where
  dir : Dir
  dirPos : Nat
  deriving DecidableEq, Repr

/-- The entries of one sector, `n` of them from `idx` on; without the entry at `dirPos`, the
position behind the sector.
mirrors src/fs/dir.c:530-547 -/
def readDirSector (b : Bytes) (size dirPos : Nat) : (n idx curDirEntryPos : Nat) → K (Nat ⊕ DirEntry)
  | 0, _, pos => pure (.inl pos)
  | n + 1, idx, pos =>
    if le32 (direntAt b idx) 20 ≠ ftUnknown then
      if pos < dirPos then readDirSector b size dirPos n (idx + 1) (pos + size)
      else do
        assert (pos = dirPos)
        pure (.inr (.ofBytes (direntAt b idx)))
    else readDirSector b size dirPos n (idx + 1) pos

/-- From block `blockIdx` on, with `n` elements of `all_block` left.
mirrors src/fs/dir.c:515-550 -/
def readDirBlocks (allBlock : Nat → Nat) (size dirPos : Nat) : (n blockIdx curDirEntryPos : Nat) → K DirEntry
  | 0, _, _ => stop .ub
  | n + 1, blockIdx, pos =>
    if allBlock blockIdx = 0 then readDirBlocks allBlock size dirPos n (blockIdx + 1) pos
    else do
      let dirE ← ideRead (allBlock blockIdx) zeros 1
      match ← readDirSector dirE size dirPos dirEntryPerSec 0 pos with
      | .inr e => pure e
      | .inl pos => readDirBlocks allBlock size dirPos n (blockIdx + 1) pos

/-- `none` is NULL. mirrors src/fs/dir.c:491-552 (`dir_read`) -/
def dirRead (st : DirStream) : K (Option DirEntry × DirStream) := do
  let allBlock ← collectBlocks st.dir.inode
  let size ← dirEntrySize
  let x ← derefInode st.dir.inode
  if st.dirPos < x.iSize then
    let e ← readDirBlocks allBlock size st.dirPos 140 0 0
    pure (some e, { st with dirPos := (st.dirPos + size) % 4294967296 })
  else pure (none, st)

/-- mirrors src/fs/fs.c:992-996 (`sys_readdir`) -/
def sysReaddir (dir : Option DirStream) : K (Option DirEntry × DirStream) :=
  match dir with
  | none => stop .panic
  | some st => dirRead st

/-- mirrors src/fs/fs.c:1003-1006 (`sys_rewinddir`) -/
def sysRewinddir (st : DirStream) : DirStream := { st with dirPos := 0 }

/-! ## The live entries -/

/-- Of the `n` entries from `idx` on. -/
def liveFrom (b : Bytes) : (n idx : Nat) → List DirEntry
  | 0, _ => []
  | n + 1, idx => if live b idx then .ofBytes (direntAt b idx) :: liveFrom b n (idx + 1) else liveFrom b n (idx + 1)

/-- Of the `n` blocks from `k` on, in block order. -/
def liveBlocks (disk : Bytes) (B : Nat → Nat) : (n k : Nat) → List DirEntry
  | 0, _ => []
  | n + 1, k => (if B k = 0 then [] else liveFrom (sectorAtLba disk (B k)) dirEntryPerSec 0) ++ liveBlocks disk B n (k + 1)

/-- The inode at `p` is a directory with the live entries `es`, and its size says so. -/
structure Lists (p : Ptr) (es : List DirEntry) (s : Mem) (d : Dev) : Prop where
  dirent : s.curPart.sb.dirEntrySize = direntSize
  inode : ∃ x, s.inodes p = some x ∧ x.iSize = direntSize * es.length ∧ liveBlocks d.disk (fileBlocks d.disk x) 140 0 = es ∧
    x.iSectors 12 ≤ maxLba ∧ ∀ k, fileBlocks d.disk x k ≤ maxLba

section
variable {b : Bytes} {s : Mem} {d : Dev} {p : Ptr} {es : List DirEntry} {st : DirStream} {B : Nat → Nat}

theorem length_liveFrom (b : Bytes) (n idx : Nat) : (liveFrom b n idx).length ≤ n := by
  induction n generalizing idx with
  | zero => exact Nat.le_refl 0
  | succ n ih =>
    unfold liveFrom
    split
    · exact Nat.succ_le_succ (ih (idx + 1))
    · exact Nat.le_succ_of_le (ih (idx + 1))

theorem length_liveBlocks (disk : Bytes) (B : Nat → Nat) (n k : Nat) : (liveBlocks disk B n k).length ≤ 21 * n := by
  induction n generalizing k with
  | zero => exact Nat.le_refl 0
  | succ n ih =>
    have hrest := ih (k + 1)
    have hsector := length_liveFrom (sectorAtLba disk (B k)) dirEntryPerSec 0
    have h21 : dirEntryPerSec = 21 := rfl
    unfold liveBlocks
    rw [List.length_append]
    split
    · rw [List.length_nil]
      omega
    · omega

/-! ## A sector -/

/-- The place in `es` of the entry that is looked for is `j`; `c` live entries have been passed. -/
theorem exec_readDirSector (n : Nat) : ∀ (idx c j : Nat), c ≤ j →
    exec device (readDirSector b direntSize (direntSize * j) n idx (direntSize * c)) s d =
    .ok (((liveFrom b n idx)[j - c]?).elim (.inl (direntSize * (c + (liveFrom b n idx).length))) .inr, s, d) := by
  induction n with
  | zero => exact fun _ _ _ _ => rfl
  | succ n ih =>
    intro idx c j hcj
    unfold readDirSector liveFrom
    by_cases hl : live b idx = true
    · rw [if_pos (bne_iff_ne.1 hl), if_pos hl]
      by_cases hlt : c < j
      · have hstep := ih (idx + 1) (c + 1) j hlt
        rw [if_pos ((Nat.mul_lt_mul_left (by decide)).2 hlt), show direntSize * c + direntSize = direntSize * (c + 1) from rfl, hstep,
          show j - c = (j - (c + 1)) + 1 by omega, List.getElem?_cons_succ, List.length_cons, Nat.add_right_comm, Nat.add_assoc]
      · obtain rfl : c = j := by omega
        rw [if_neg (Nat.lt_irrefl _), Nat.sub_self]
        unfold assert
        rw [if_pos rfl]
        rfl
    · have hfree : ¬ le32 (direntAt b idx) 20 ≠ ftUnknown := fun h => hl (bne_iff_ne.2 h)
      rw [if_neg hfree, if_neg hl]
      exact ih (idx + 1) c j hcj

/-! ## All blocks -/

/-- The entry that is looked for is reached before `all_block` ends. -/
theorem exec_readDirBlocks {e : DirEntry} (hB : ∀ k, B k ≤ maxLba) (n : Nat) : ∀ (k c j : Nat), c ≤ j →
    (liveBlocks d.disk B n k)[j - c]? = some e →
    exec device (readDirBlocks B direntSize (direntSize * j) n k (direntSize * c)) s d = .ok (e, s, d) := by
  induction n with
  | zero =>
    intro k c j _ he
    cases he
  | succ n ih =>
    intro k c j hcj he
    unfold liveBlocks at he
    unfold readDirBlocks
    by_cases h0 : B k = 0
    · rw [if_pos h0, List.nil_append] at he
      rw [if_pos h0]
      exact ih (k + 1) c j hcj he
    · have hread : exec device (ideRead (B k) zeros 1) s d = .ok (sectorAtLba d.disk (B k), s, d) :=
        exec_ideRead zeros (hB k) Nat.one_pos (by decide)
      rw [if_neg h0] at he
      rw [if_neg h0, exec_bind_ok device hread, exec_bind_ok device (exec_readDirSector dirEntryPerSec 0 c j hcj)]
      generalize liveFrom (sectorAtLba d.disk (B k)) dirEntryPerSec 0 = l at he ⊢
      rw [List.getElem?_append] at he
      by_cases hlt : j - c < l.length
      · rw [if_pos hlt] at he
        rw [he]
        rfl
      · rw [if_neg hlt, Nat.sub_sub] at he
        rw [List.getElem?_eq_none (Nat.not_lt.1 hlt)]
        exact ih (k + 1) (c + l.length) j (by omega) he

/-- **One call.** Behind the last entry it is NULL, and the position stays. -/
theorem exec_dirRead {j : Nat} (h : Lists st.dir.inode es s d) (hj : st.dirPos = direntSize * j) :
    exec device (dirRead st) s d = .ok ((es[j]?, if j < es.length then { st with dirPos := direntSize * (j + 1) } else st), s, d) := by
  obtain ⟨x, hx, hsize, hlive, htable, hblocks⟩ := h.inode
  have hrun : exec device dirEntrySize s d = .ok (direntSize, s, d) := by
    unfold dirEntrySize
    rw [exec_readM_bind, h.dirent]
    rfl
  unfold dirRead
  rw [exec_bind_ok device (exec_collectBlocks hx fun _ => htable), exec_bind_ok device hrun,
    exec_bind_ok device (exec_derefInode hx), hsize, hj]
  by_cases hlt : j < es.length
  · have hlen := length_liveBlocks d.disk (fileBlocks d.disk x) 140 0
    have h24 : direntSize = 24 := rfl
    have hnext : (direntSize * j + direntSize) % 4294967296 = direntSize * (j + 1) := by
      rw [hlive] at hlen
      rw [h24]
      exact Nat.mod_eq_of_lt (by omega)
    have he : (liveBlocks d.disk (fileBlocks d.disk x) 140 0)[j - 0]? = some es[j] := by
      rw [hlive]
      exact List.getElem?_eq_getElem hlt
    have hfound : exec device (readDirBlocks (fileBlocks d.disk x) direntSize (direntSize * j) 140 0 0) s d = .ok (es[j], s, d) :=
      exec_readDirBlocks hblocks 140 0 0 j (Nat.zero_le j) he
    rw [if_pos ((Nat.mul_lt_mul_left (by decide)).2 hlt), if_pos hlt, exec_bind_ok device hfound, hnext,
      List.getElem?_eq_getElem hlt]
    rfl
  · rw [if_neg (fun hc => hlt ((Nat.mul_lt_mul_left (by decide)).1 hc)), if_neg hlt, List.getElem?_eq_none (Nat.not_lt.1 hlt)]
    rfl

/-! ## A run -/

/-- `sys_rewinddir` and calls of `dir_read`, with what they return. Between the calls anything may
happen that leaves the entries `es` alone. -/
inductive ReadCalls (es : List DirEntry) : DirStream → List (Option DirEntry) → Prop where
  | rewind (st : DirStream) : ReadCalls es (sysRewinddir st) []
  | read {st st' : DirStream} {rs : List (Option DirEntry)} {r : Option DirEntry} {s s' : Mem} {d d' : Dev} :
    ReadCalls es st rs → Lists st.dir.inode es s d → exec device (dirRead st) s d = .ok ((r, st'), s', d') →
      ReadCalls es st' (rs ++ [r])

theorem ReadCalls.position {rs : List (Option DirEntry)} (h : ReadCalls es st rs) :
    st.dirPos = direntSize * min rs.length es.length ∧ rs = (List.range rs.length).map fun k => es[k]? := by
  induction h with
  | rewind st =>
    rw [List.length_nil, Nat.zero_min]
    exact ⟨rfl, rfl⟩
  | @read st st' rs r s s' d d' _ hl hrun ih =>
    obtain ⟨hpos, hrs⟩ := ih
    rw [exec_dirRead hl hpos] at hrun
    cases hrun
    rw [List.length_append, List.length_singleton, List.range_succ, List.map_append, ← hrs]
    by_cases hlt : rs.length < es.length
    · rw [Nat.min_eq_left (Nat.le_of_lt hlt), if_pos hlt, Nat.min_eq_left hlt]
      exact ⟨rfl, rfl⟩
    · have hle : es.length ≤ rs.length := Nat.not_lt.1 hlt
      rw [Nat.min_eq_right hle, if_neg (Nat.lt_irrefl _), Nat.min_eq_right (Nat.le_succ_of_le hle)]
      rw [Nat.min_eq_right hle] at hpos
      rw [List.getElem?_eq_none (Nat.le_refl _), List.map_singleton, List.getElem?_eq_none hle]
      exact ⟨hpos, rfl⟩

/-- **The calls behind `sys_rewinddir`** return the live entries one after the other, and then NULL; and
the next call runs through and changes neither memory nor disk. -/
theorem dirRead_run (es : List DirEntry) (st : DirStream) (rs : List (Option DirEntry)) (h : ReadCalls es st rs) :
    rs = (List.range rs.length).map (fun k => es[k]?) ∧ ∀ s d, Lists st.dir.inode es s d →
      ∃ st', exec device (dirRead st) s d = .ok ((es[rs.length]?, st'), s, d) := by
  obtain ⟨hpos, hrs⟩ := h.position
  refine ⟨hrs, fun s d hl => ?_⟩
  have hrun := exec_dirRead hl hpos
  by_cases hlt : rs.length < es.length
  · rw [Nat.min_eq_left (Nat.le_of_lt hlt)] at hrun
    exact ⟨_, hrun⟩
  · have hle : es.length ≤ rs.length := Nat.not_lt.1 hlt
    rw [Nat.min_eq_right hle, List.getElem?_eq_none (Nat.le_refl _), ← List.getElem?_eq_none hle] at hrun
    exact ⟨_, hrun⟩

end

/-- "a" and "b" in the second block of a directory without a first one, with a free place between them. -/
def holedDisk : Bytes :=
  splice (splice zeros 512 (DirEntry.bytes ⟨ofStr [0x61], 5, ftRegular⟩) direntSize) 560
    (DirEntry.bytes ⟨ofStr [0x62], 6, ftDirectory⟩) direntSize

def holedDir : Inode := { inodeInit 3 with iSize := 48, iSectors := upd (inodeInit 3).iSectors 1 1 }

def holedMem : Mem := { blankMem with inodes := upd blankMem.inodes 7 (some holedDir) }

/-- Two calls return the entries, the third one NULL, and so does the next. -/
theorem dirRead_run_holes : ∃ a b : DirEntry, a.iNo = 5 ∧ b.iNo = 6 ∧ ∃ st, [some a, some b, none] = (List.range 3).map (fun k => [a, b][k]?) ∧
    ∃ st', exec device (dirRead st) holedMem { blankDev with disk := holedDisk } =
      .ok ((none, st'), holedMem, { blankDev with disk := holedDisk }) := by
  have hno : (liveBlocks holedDisk (fileBlocks holedDisk holedDir) 140 0).map DirEntry.iNo = [5, 6] := by decide +kernel
  obtain ⟨a, b, he⟩ := List.length_eq_two.1 ((List.length_map DirEntry.iNo).symm.trans (congrArg List.length hno))
  have hle : ∀ k, fileBlocks holedDisk holedDir k ≤ maxLba := by
    intro k
    by_cases hk : k < 140
    · have hall : ∀ k, k < 140 → fileBlocks holedDisk holedDir k ≤ maxLba := by decide +kernel
      exact hall k hk
    · rw [fileBlocks_ge _ _ (Nat.not_lt.1 hk)]
      exact Nat.zero_le _
  have hl : Lists 7 [a, b] holedMem { blankDev with disk := holedDisk } :=
    ⟨rfl, holedDir, rfl, rfl, he, Nat.zero_le _, hle⟩
  rw [he] at hno
  have h0 : ReadCalls [a, b] ⟨⟨none, 7⟩, 0⟩ [] := .rewind ⟨⟨none, 7⟩, 0⟩
  have h1 := h0.read hl (exec_dirRead (j := 0) hl rfl)
  have h2 := h1.read hl (exec_dirRead (j := 1) hl rfl)
  have h3 := h2.read hl (exec_dirRead (j := 2) hl rfl)
  obtain ⟨hrs, hnext⟩ := dirRead_run [a, b] _ _ h3
  exact ⟨a, b, congrArg (·.getD 0 0) hno, congrArg (·.getD 1 0) hno, _, hrs, hnext _ _ hl⟩

end Enix.Fs
