/-
The rules of a `.aeroignore` file, and what a scan of AeroCloud does with them
(`sync_ignore.rs`, and `scan_recursive` of `cloud_service.rs`).

The rules are read line by line; the last one that matches a path decides.  Every entry a
scan meets is kept, skipped, or, where it is an excluded directory below which a `!` rule may
re-include something, walked without being listed, each child being decided alone.
-/
import AeroFtp.SyncFilter.Exclude

namespace AeroFtp.SyncFilter

open Sync (Path trimEndSlash)

/-! ### The rules -/

structure IgnoreRule where
  /-- The glob the rule was compiled from (`**/name` when unanchored). -/
  glob : Path
  /-- Whether this is a negation rule (starts with `!`). -/
  negated : Bool
  /-- Whether this rule only applies to directories (ends with `/`). -/
  dirOnly : Bool
  /-- The compiled glob at the same index. -/
  isMatch : GlobMatcher

structure AeroIgnore where
  rules : List IgnoreRule

variable (env : Platform)

def buildIgnoreMatcher (pattern : Path) : Option GlobMatcher :=
  (env.build pattern true (env.windows || env.macos)).toOption

def trim (text : Path) : Path :=
  ((text.dropWhile env.isWhitespace).reverse.dropWhile env.isWhitespace).reverse

/-- The lines of a text; one that is empty after the last line break is none. -/
def linesFrom (line : Path) : Path → List Path
  | [] => if line.isEmpty then [] else [line.reverse]
  | ch :: text =>
    if ch = '\n' then
      -- a carriage return before the line break belongs to it
      (match line with
        | '\r' :: before => before.reverse
        | line => line.reverse) :: linesFrom [] text
    else linesFrom (ch :: line) text

def lines (text : Path) : List Path := linesFrom [] text

/-- One turn of the loop of `AeroIgnore::parse`: the rule a line gives. -/
def parseLine (line : Path) : Option IgnoreRule :=
  let trimmed := trim env line
  if trimmed.isEmpty || trimmed.head? == some '#' then none else
    let negated := trimmed.head? == some '!'
    let pattern := if negated then trim env trimmed.tail else trimmed
    if pattern.isEmpty then none else
      let dirOnly := pattern.getLast? == some '/'
      let clean := trimEndSlash pattern
      let anchored := clean.contains '/'
      let core := if clean.head? == some '/' then clean.tail else clean
      let glob := if anchored then core else '*' :: '*' :: '/' :: core
      -- a glob that does not compile is matched literally
      let literal := if anchored then env.escape core else '*' :: '*' :: '/' :: env.escape core
      ((buildIgnoreMatcher env glob).or (buildIgnoreMatcher env literal)).map fun isMatch =>
        { glob, negated, dirOnly, isMatch }

def AeroIgnore.parse (content : Path) : Option AeroIgnore :=
  let rules := (lines content).filterMap (parseLine env)
  if rules.isEmpty then none else some { rules }

/-! ### What the rules say of a path -/

/-- The path an anchored glob names once `\` escapes are applied; none where a wildcard is
left, or a trailing `\`. -/
def anchoredLiteralPath : Path → Option Path
  | [] => some []
  | ['\\'] => none
  | '\\' :: ch :: glob => (anchoredLiteralPath glob).map (ch :: ·)
  | ch :: glob =>
    if ch = '*' ∨ ch = '?' ∨ ch = '[' ∨ ch = '\x7b' then none
    else (anchoredLiteralPath glob).map (ch :: ·)

/-- Whether a rule may match below the directory whose path, with a slash, is `below`. -/
def IgnoreRule.mayMatchBelow (rule : IgnoreRule) (below : Path) : Bool :=
  if ['*', '*', '/'].isPrefixOf rule.glob then true
  else
    match anchoredLiteralPath rule.glob with
    | some literal => below.isPrefixOf literal
    | none => true

/-- Whether a rule is tried on an entry, and matches it. -/
def IgnoreRule.applies (rule : IgnoreRule) (path : Path) (isDir : Bool) : Bool :=
  !(rule.dirOnly && !isDir) && rule.isMatch path

namespace AeroIgnore

def mayReincludeBelow (ignore : AeroIgnore) (dirRel : Path) : Bool :=
  let below := trimEndSlash dirRel ++ ['/']
  ignore.rules.any fun rule => rule.negated && rule.mayMatchBelow below

def isIgnored (ignore : AeroIgnore) (path : Path) (isDir : Bool) : Bool :=
  ignore.rules.foldl (fun ignored rule =>
    if rule.applies path isDir then !rule.negated else ignored) false

def shouldExclude (env : Platform) (ignore : AeroIgnore) (path : Path) (isDir : Bool)
    (configExcludes : ExcludeMatcher) : Bool :=
  let aeroignoreResult := ignore.isIgnored path isDir
  let (hadMatch, lastMatchNegated) := ignore.rules.foldl (fun (seen : Bool × Bool) rule =>
    if rule.applies path isDir then (true, rule.negated) else seen) (false, false)
  if hadMatch && lastMatchNegated then false
  else if aeroignoreResult then true
  else configExcludes.isExcluded env path

end AeroIgnore

/-! ### The scan -/

inductive ScanDecision
  /-- Listed (and walked, when a directory). -/
  | keep
  /-- Left out, and a directory is not walked. -/
  | skip
  /-- Not listed itself, but walked, and each child decided alone. -/
  | walkOnly
  deriving DecidableEq, Repr

variable (aeroignore : Option AeroIgnore)

/-- Whether an entry is excluded, by the rules if there are any. -/
def isLeftOut (path : Path) (isDir : Bool) (configExcludes : ExcludeMatcher) : Bool :=
  match aeroignore with
  | some rules => rules.shouldExclude env path isDir configExcludes
  | none => configExcludes.isExcluded env path

def scanDecision (path : Path) (isDir : Bool) (configExcludes : ExcludeMatcher) : ScanDecision :=
  let excluded := isLeftOut env aeroignore path isDir configExcludes
  if !excluded then .keep
  else if isDir && aeroignore.any fun rules => rules.mayReincludeBelow path then .walkOnly
  else .skip

/-- What a scan finds in a folder: an entry, and the entries after it. -/
inductive Folder
  | nil
  | file (name : Path) (rest : Folder)
  | folder (name : Path) (inside rest : Folder)
  deriving Repr

/-- An entry met by a scan: the names that lead to it, and whether it is a directory. -/
abbrev Entry := List Path × Bool

/-- All entries at and below a folder; `above` are the names that lead to it. -/
def Folder.entries (above : List Path) : Folder → List Entry
  | .nil => []
  | .file name rest => (above ++ [name], false) :: rest.entries above
  | .folder name inside rest =>
    (above ++ [name], true) :: (inside.entries (above ++ [name]) ++ rest.entries above)

/-- The key of an entry, relative to the root of the scan. -/
def relativeKey (names : List Path) : Path := ['/'].intercalate names

/-- The walk of a scan, by what it decides of an entry. -/
def scanRecursive (decide : List Path → Bool → ScanDecision) (above : List Path) :
    Folder → List Entry
  | .nil => []
  | .file name rest =>
    match decide (above ++ [name]) false with
    | .keep => (above ++ [name], false) :: scanRecursive decide above rest
    | .skip | .walkOnly => scanRecursive decide above rest
  | .folder name inside rest =>
    match decide (above ++ [name]) true with
    | .skip => scanRecursive decide above rest
    | .walkOnly => scanRecursive decide (above ++ [name]) inside ++ scanRecursive decide above rest
    | .keep =>
      (above ++ [name], true) ::
        (scanRecursive decide (above ++ [name]) inside ++ scanRecursive decide above rest)

/-- What a scan lists of a folder under the `.aeroignore` and the configured list. -/
def scanned (excludes : ExcludeMatcher) (root : Folder) : List Entry :=
  scanRecursive (fun names isDir => scanDecision env aeroignore (relativeKey names) isDir excludes)
    [] root

end AeroFtp.SyncFilter
