/-
The exclude matcher every sync surface shares (`sync_exclude.rs`).

A pattern of the configured list is compiled into a glob, the same glob without regard to
case, and its own text in lower case.  A path is then read in many ways: by its segments, by
runs of segments, as a whole, by its end, and as the former command line read it; and all but
the last once with `\` as a character of a name and once with it as a separator.  One reading
that matches is enough.

What globset does with a pattern, and how text is put into lower case, are parameters.
Indices count characters where the source counts bytes: every slice starts and ends at a
character.
-/
import AeroFtp.Sync.Paths

namespace AeroFtp.SyncFilter

open Sync (Path)

/-- A compiled glob, by what it matches. -/
abbrev GlobMatcher := Path → Bool

/-- What the matchers are given from outside: globset's builder, by the pattern and its options
`literal_separator` and `case_insensitive`, which compiles a glob or gives the kind of the
error, and its `escape`; what Unicode says of case and white space; and the host. -/
structure Platform where
  build : Path → Bool → Bool → Except String GlobMatcher
  escape : Path → Path
  toLowercase : Path → Path
  isWhitespace : Char → Bool
  windows : Bool
  macos : Bool

structure CompiledPattern where
  /-- The glob as written (case-sensitive). -/
  exact : GlobMatcher
  /-- The same glob without regard to case, where it compiles. -/
  folded : Option GlobMatcher
  /-- The text of the pattern in lower case, without the trailing `/` or the anchor. -/
  literal : Path
  hasSlash : Bool
  anchored : Bool

variable (env : Platform) (p : CompiledPattern) (path : Path) (bounds : List (Nat × Nat))
variable (candidate : Path)

def CompiledPattern.globMatches : Bool :=
  p.exact candidate || p.folded.any fun f => f candidate

def CompiledPattern.textMatches : Bool :=
  env.toLowercase candidate == p.literal

/-- The two tests every segment and every run of segments is put to. -/
def CompiledPattern.nameMatches : Bool :=
  p.globMatches candidate || p.textMatches env candidate

structure ExcludeMatcher where
  patterns : List CompiledPattern
  /-- Every pattern as the former command line compiled it. -/
  asWritten : List GlobMatcher
  everything : Bool

/-- A text with every `\` turned into `/`. -/
def replaceBackslash : Path :=
  path.map fun ch => if ch = '\\' then '/' else ch

def ExcludeMatcher.isEmpty (m : ExcludeMatcher) : Bool :=
  m.patterns.isEmpty && m.asWritten.isEmpty && !m.everything

/-! ### Reading a path -/

/-- Start and end of the segments of a path, empty ones left out: the characters still to come
are behind `i` others, and the segment they continue starts at `start`. -/
def boundsFrom : Path → Nat → Nat → List (Nat × Nat)
  | [], i, start => if start < i then [(start, i)] else []
  | ch :: path, i, start =>
    if ch = '/' then
      if start < i then (start, i) :: boundsFrom path (i + 1) (i + 1)
      else boundsFrom path (i + 1) (i + 1)
    else boundsFrom path (i + 1) start

def boundsOf : List (Nat × Nat) := boundsFrom path 0 0

/-- The path from the start of its segment `i` to the end of its segment `j`.  (The source cuts
it out of `whole`, which starts at the first segment, and takes that start off both ends.) -/
def slice (i j : Nat) : Path :=
  (path.take (bounds.getD j (0, 0)).2).drop (bounds.getD i (0, 0)).1

/-- An anchored pattern starts at the root, or right after an empty segment. -/
def startsAtARoot (i : Nat) : Bool :=
  let start := (bounds.getD i (0, 0)).1
  i == 0 || (2 ≤ start && (path.take start).drop (start - 2) == ['/', '/'])

/-- The `*X` suffix reading. -/
def suffixMatches (lower : Path) : Bool :=
  match p.anchored, p.literal with
  | false, '*' :: rest => rest.isSuffixOf lower
  | _, _ => false

def patternMatches (path whole lower : Path) (bounds : List (Nat × Nat)) : Bool :=
  if suffixMatches p lower then true
  else if !p.hasSlash then
    ((List.range bounds.length).any fun i => p.nameMatches env (slice path bounds i i)) ||
      p.globMatches whole
  else
    (List.range bounds.length).any fun i =>
      -- a pattern with an anchor starts at a root only
      (!p.anchored || startsAtARoot path bounds i) &&
        (List.range' i (bounds.length - i)).any fun j => p.nameMatches env (slice path bounds i j)

/-- The path from its first to its last segment. -/
def wholeOf : Path := slice path bounds 0 (bounds.length - 1)

namespace ExcludeMatcher

variable (env : Platform) (m : ExcludeMatcher)

/-- Match a path split on `/` only. -/
def matchesSplit (path : Path) : Bool :=
  let bounds := boundsOf path
  if bounds.isEmpty then false else
    let whole := wholeOf path bounds
    let lower := env.toLowercase whole
    m.patterns.any fun p => patternMatches env p path whole lower bounds

def matchesAsWritten (candidate : Path) : Bool :=
  !candidate.isEmpty && m.asWritten.any fun g => g candidate

/-- The last name of a path. -/
def lastName (path : Path) : Path := (path.reverse.takeWhile (· != '/')).reverse

def isExcluded (path : Path) : Bool :=
  if m.everything then true
  else if m.isEmpty then false
  else
    m.matchesSplit env path ||
      (path.contains '\\' && m.matchesSplit env (replaceBackslash path)) ||
      m.matchesAsWritten path || m.matchesAsWritten (lastName path)

end ExcludeMatcher

end AeroFtp.SyncFilter
