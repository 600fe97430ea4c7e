import Enix.Fs.File

/-!
# Paths (`fs/fs.c`)

`path_parse` splits the first component off a path; repeated slashes count
as one and a trailing one is dropped. `search_file` walks down from the root
directory, opening each directory it enters and closing the one it leaves,
and reports the components it has looked up in `searched_path`.

The callers parse into an array of 16 bytes: a longer component runs over
its end, and one of 16 bytes leaves no room for the NUL.
-/
set_option autoImplicit false

namespace Enix.Fs
open Enix.Core Enix.Kernel

/-- '/' -/
def slash : UInt8 := 0x2f

/-- mirrors src/fs/fs.h:9 -/
def maxPathLen : Nat := 512

/-- The component and what is behind it; `none` is NULL.
mirrors src/fs/fs.c:274-288 (`path_parse`) -/
def pathParse (pathname : Str) : Str × Option Str :=
  let pathname := pathname.dropWhile (· == slash)
  let rest := pathname.dropWhile (· != slash)
  (pathname.takeWhile (· != slash), if rest.isEmpty then none else some rest)

/-- `path_parse` into a zeroed array of MAX_FILE_NAME_LEN bytes. -/
def parseName (pathname : Str) : K (Str × Option Str) :=
  if (pathParse pathname).1.length ≤ maxFileNameLen then pure (pathParse pathname) else stop .ub

/-- The next component, if the path goes on. mirrors src/fs/fs.c:362-363 -/
def parseNext : Option Str → K (Str × Option Str)
  | none => pure ([], none)
  | some p => parseName p

/-- mirrors src/fs/fs.c:305-311 -/
def depthLoop : (fuel : Nat) → (name : Str) → (p : Option Str) → (depth : Nat) → K Nat
  | 0, _, _, _ => stop .hang
  | _ + 1, [], _, depth => pure depth
  | _ + 1, _ :: _, none, depth => pure (depth + 1)
  | fuel + 1, _ :: _, some p, depth => do
    let (name, p) ← parseName p
    depthLoop fuel name p (depth + 1)

/-- Without a component the first byte of the array is looked at though
nothing was stored there.
mirrors src/fs/fs.c:297-313 (`path_depth_cnt`) -/
def pathDepthCnt (pathname : Str) : K Nat := do
  let (name, p) ← parseName pathname
  if name = [] then stop .ub else depthLoop (pathname.length + 1) name p 0

/-- mirrors src/fs/fs.h:44-50 (`struct path_search_record`) -/
structure PathSearchRecord where
  searchedPath : Str
  parentDir : Dir
  fileType : Nat
  deriving DecidableEq, Repr

/-- A `uint32_t` returned as an `int`. -/
def int32 (n : Nat) : Int := if n % 4294967296 < 2147483648 then (n % 4294967296 : Nat)
  else ((n % 4294967296 : Nat) : Int) - 4294967296

/-- `name` and `subPath` are the component to look up next and the path
behind it; `dirE` is the entry found last.
mirrors src/fs/fs.c:349-396 -/
def searchLoop (cur : Pid) : (fuel : Nat) → (name : Str) → (subPath : Option Str) →
    (parentDir : Dir) → (parentInodeNo : Nat) → (dirE : Option DirEntry) → (searchedPath : Str) →
    K (Int × PathSearchRecord)
  | 0, _, _, _, _, _, _ => stop .hang
  | _ + 1, [], _, parentDir, parentInodeNo, dirE, searchedPath => do
    dirClose cur parentDir
    let parentDir ← dirOpen cur parentInodeNo
    match dirE with
    | none => stop .ub
    | some dirE => pure (int32 dirE.iNo, ⟨searchedPath, parentDir, ftDirectory⟩)
  | fuel + 1, name@(_ :: _), subPath, parentDir, parentInodeNo, _, searchedPath => do
    assert (searchedPath.length < maxPathLen)
    let searchedPath := searchedPath ++ slash :: name
    if searchedPath.length < maxPathLen ∧ name.length < maxFileNameLen then
      match ← searchDirEntry cur parentDir name with
      | none => pure (-1, ⟨searchedPath, parentDir, ftUnknown⟩)
      | some dirE =>
        let (name, subPath) ← parseNext subPath
        if dirE.fType = ftDirectory then
          let x ← derefInode parentDir.inode
          dirClose cur parentDir
          let parentDir ← dirOpen cur dirE.iNo
          searchLoop cur fuel name subPath parentDir x.iNo (some dirE) searchedPath
        else if dirE.fType = ftRegular then
          pure (int32 dirE.iNo, ⟨searchedPath, parentDir, ftRegular⟩)
        else searchLoop cur fuel name subPath parentDir parentInodeNo (some dirE) searchedPath
    else stop .ub

/-- "/", "/." and "/.." -/
def isRoot (pathname : Str) : Bool :=
  pathname == [slash] || pathname == [slash, 0x2e] || pathname == [slash, 0x2e, 0x2e]

/-- mirrors src/fs/fs.c:322-397 (`search_file`) -/
def searchFile (cur : Pid) (pathname : Str) : K (Int × PathSearchRecord) := do
  let root ← rootDir
  if isRoot pathname then pure (0, ⟨[], root, ftDirectory⟩)
  else
    assert (pathname.head? = some slash ∧ 1 < pathname.length ∧ pathname.length < maxPathLen)
    let (name, subPath) ← parseName pathname
    searchLoop cur (pathname.length + 1) name subPath root 0 none []

/-- `strrchr(str, '/') + 1` -/
def baseName (str : Str) : Str := (str.reverse.takeWhile (· != slash)).reverse

end Enix.Fs
