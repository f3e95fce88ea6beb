/-
Paths as the sync engine spells them, from `sync.rs`.

A path is its characters; its components are what stands between slashes.  The build
modelled is the Unix one: a slash is the only separator.
-/
import Mathlib.Algebra.GroupWithZero.Nat
import Mathlib.Data.List.Basic

namespace AeroFtp.Sync

/-- The characters of a path. -/
abbrev Path := List Char

variable (path : Path)

/-- `path.split('/')`. -/
def splitSlash : List Path := path.splitOn '/'

/-- `path.rsplit('/').next()`. -/
def lastPart : Path := (path.reverse.takeWhile (· != '/')).reverse

/-- `path.rsplit_once('/')`. -/
def rsplitOnce : Option (Path × Path) :=
  match path.reverse.span (· != '/') with
  | (_, []) => none
  | (last, _ :: front) => some (front.reverse, last.reverse)

/-- `path.trim_end_matches('/')`. -/
def trimEndSlash : Path := (path.reverse.dropWhile (· == '/')).reverse

/-- `path.trim_start_matches('/')`. -/
def trimStartSlash : Path := path.dropWhile (· == '/')

/-- `path.len()`: the bytes of its UTF-8. -/
def byteLen : Nat := (path.map Char.utf8Size).sum

/-- The second byte is a colon: the first character is one byte and the second is it. -/
def hasDriveLetter : Path → Bool
  | c :: ':' :: _ => c.utf8Size = 1
  | _ => false

def validateRelativePath (relativePath : Path) : Except String Unit :=
  if '\x00' ∈ relativePath then .error "Path contains null bytes"
  else if relativePath.head? = some '/' ∨ relativePath.head? = some '\\' then
    .error "Absolute path not allowed in relative context"
  else if hasDriveLetter relativePath then .error "Drive letter paths not allowed"
  else if ['.', '.'] ∈ splitSlash relativePath then .error "Path traversal (..) not allowed"
  else .ok ()

def joinClean (root rel : Path) : Path :=
  let rel := trimStartSlash rel
  if root = [] then rel
  else if root.getLast? = some '/' then root ++ rel
  else root ++ '/' :: rel

/-- One step of the loop of `remote_dir_chain`: the path so far, and those before it. -/
def extendChain (leadingSlash : Bool) : Path × List Path → Path → Path × List Path
  | (accumulated, chain), [] => (accumulated, chain)
  | (accumulated, chain), part =>
    let accumulated :=
      if leadingSlash ∨ accumulated ≠ [] then accumulated ++ '/' :: part else accumulated ++ part
    (accumulated, chain ++ [accumulated])

/-- Every directory on the way to `dir`, outermost first. -/
def remoteDirChain (dir : Path) : List Path :=
  let trimmed := trimEndSlash dir
  if trimmed = [] then []
  else ((splitSlash trimmed).foldl (extendChain (trimmed.head? = some '/')) ([], [])).2

end AeroFtp.Sync
