/-
# `Lib.RealPath` — `os.path.realpath`, as CPython 3.12 computes it

`realpath` resolves symbolic links in user space: it reads each link with
`lstat` and `readlink` and goes on with the text.  `joinRealpath` is
`_joinrealpath`, with its dictionary `seen` of links met so far: a link that is
still being resolved when it is met again is a loop.

**A loop ends the resolution.**  The rest of the path is then appended as it
stands and `normpath` removes its `..` as text, so the result may still contain
symbolic links, and resolving it again may give another path.

A relative path is taken from the working directory at the start, where CPython
adds the directory at the end: the working directory is already resolved.
-/
import HandBrakeEncoder.Lib.FileSystem

namespace Posix

/-- What `realpath` raises: `ValueError` on a NUL, `RecursionError` on too many nested links. -/
inductive RealpathError
  | embeddedNull
  | tooDeep
  deriving DecidableEq

/-- Links met so far, `none` while they are being resolved. -/
abbrev Seen := List (List Char × Option (List Char))

/-- The path reached, whether it was resolved to the end, and the dictionary. -/
structure Resolving where
  path : List Char
  ok : Bool
  seen : Seen

/-- The pieces of a path put together again. -/
def unsplit (pieces : List Name) : List Char := List.intercalate ['/'] pieces

/-- The loop of `_joinrealpath`; `resolve` is the recursive call at a symbolic link. -/
def joinPieces (fs : Fs)
    (resolve : Seen → List Char → List Char → Except RealpathError Resolving) :
    Seen → List Char → List Name → Except RealpathError Resolving
  | seen, path, [] => .ok ⟨path, true, seen⟩
  | seen, path, name :: rest =>
      if name = [] ∨ name = ['.'] then joinPieces fs resolve seen path rest
      else if name = dotdot then joinPieces fs resolve seen (dirname path) rest
      else
        let newpath := join path name
        if '\x00' ∈ newpath then .error .embeddedNull
        else
          match fs.readlink? newpath with
          | none => joinPieces fs resolve seen newpath rest
          | some target =>
              match seen.lookup newpath with
              | some (some resolved) => joinPieces fs resolve seen resolved rest
              | some none => .ok ⟨join newpath (unsplit rest), false, seen⟩
              | none =>
                  match resolve ((newpath, none) :: seen) path target with
                  | .error e => .error e
                  | .ok r =>
                      if r.ok then
                        joinPieces fs resolve ((newpath, some r.path) :: r.seen) r.path rest
                      else .ok ⟨join r.path (unsplit rest), false, r.seen⟩

/-- `_joinrealpath`, with at most so many nested calls. -/
def joinRealpath (fs : Fs) : Nat → Seen → List Char → List Char → Except RealpathError Resolving
  | 0, _, _, _ => .error .tooDeep
  | depth + 1, seen, path, rest =>
      if isAbs rest then
        joinPieces fs (joinRealpath fs depth) seen ['/'] ((rest.drop 1).splitOn '/')
      else joinPieces fs (joinRealpath fs depth) seen path (rest.splitOn '/')

/-- `realpath`. -/
def realpath (fs : Fs) (depth : Nat) (cwd path : List Char) : Except RealpathError (List Char) :=
  match joinRealpath fs depth [] [] (join cwd path) with
  | .error e => .error e
  | .ok r => .ok (normpath r.path)

/-- Whatever the file system holds, the result is absolute and normalised. -/
theorem realpath_abs {fs : Fs} {depth : Nat} {cwd path real : List Char}
    (h : realpath fs depth cwd path = .ok real) : ∃ p : AbsPath, real = p.str := by
  rw [realpath] at h
  split at h
  · cases h
  · rename_i r _
    cases h
    exact normpath_abs r.path

end Posix
