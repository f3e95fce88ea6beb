/-
Names with characters a provider forbids, encoded and decoded (`restricted_chars.rs`).

A forbidden character is stored as a rune that looks like it, and a rune of that kind that is in
the name itself is stored behind a quote rune.  The names `.` and `..` and a space at an edge
have forms of their own.
-/
import AeroFtp.Sync.Paths

namespace AeroFtp.RestrictedChars

open Sync (Path splitSlash)

/-- The providers with an encoding, and any other one. -/
inductive ProviderType
  | box
  | dropbox
  | jottacloud
  | openDrive
  | other
  deriving DecidableEq, Repr

def quote : Char := '‛'

def symbolDel : Char := '␡'

def symbolSpace : Char := '␠'

def fullwidthDot : Char := '．'

structure EncodeSpec where
  /-- Printable punctuation forbidden anywhere in a name. -/
  chars : List Char
  /-- A leading space is restricted. -/
  leftSpace : Bool
  /-- A trailing space is restricted. -/
  rightSpace : Bool
  deriving DecidableEq, Repr

def encodeSpec : ProviderType → Option EncodeSpec
  | .box | .dropbox => some ⟨['\\'], false, true⟩
  | .jottacloud => some ⟨['"', '*', ':', '<', '>', '?', '|', '%'], false, false⟩
  | .openDrive => some ⟨['"', '*', ':', '<', '>', '?', '\\', '|'], true, true⟩
  | .other => none

variable (spec : EncodeSpec)

/-- The rune a character is stored as, if it is one that is encoded anywhere. -/
def encodeSource (c : Char) : Option Char :=
  if c = '\x7f' then some symbolDel
  else if c.toNat < 0x20 then some (Char.ofNat (c.toNat + 0x2400))
  else if spec.chars.contains c then some (Char.ofNat (c.toNat + 0xFEE0))
  else none

/-- The character a rune stands for. -/
def decodeTarget (r : Char) : Option Char :=
  if r = symbolDel then some '\x7f'
  else if 0x2400 ≤ r.toNat ∧ r.toNat < 0x2420 then some (Char.ofNat (r.toNat - 0x2400))
  else if 0xFF01 ≤ r.toNat ∧ r.toNat ≤ 0xFF5E ∧
    spec.chars.contains (Char.ofNat (r.toNat - 0xFEE0)) then
    some (Char.ofNat (r.toNat - 0xFEE0))
  else none

/-- A rune that is quoted where it is in the name itself. -/
def isReserved (r : Char) : Bool :=
  r == quote || (r == symbolSpace && (spec.leftSpace || spec.rightSpace))
    || (decodeTarget spec r).isSome

/-- What one turn of the loop of `encode_leaf` writes. -/
def encodeChar (c : Char) : Path :=
  if c = quote then [quote, quote]
  else
    match encodeSource spec c with
    | some repl => [repl]
    | none => if isReserved spec c then [quote, c] else [c]

/-- `encode_leaf` behind the forms of whole names: the spaces at the edges, and the loop. -/
def encodeEdges (leaf : Path) : Path :=
  let left := spec.leftSpace && leaf.head? == some ' '
  let middle := if left then leaf.tail else leaf
  let right := spec.rightSpace && middle.getLast? == some ' '
  let middle := if right then middle.dropLast else middle
  (if left then [symbolSpace] else []) ++ middle.flatMap (encodeChar spec) ++
    (if right then [symbolSpace] else [])

def encodeLeafWith (leaf : Path) : Path :=
  if leaf = ['.'] then [fullwidthDot]
  else if leaf = ['.', '.'] then [fullwidthDot, fullwidthDot]
  -- a literal fullwidth dot is escaped so that it is not read back as a dot
  else if leaf = [fullwidthDot] then [quote, fullwidthDot]
  else if leaf = [fullwidthDot, fullwidthDot] then [quote, fullwidthDot, quote, fullwidthDot]
  else encodeEdges spec leaf

/-- The loop of `decode_leaf`. -/
def decodeLoop : Path → Path
  | [] => []
  | [c] =>
    if c = quote then [quote]
    else if spec.rightSpace && c == symbolSpace then [' ']
    else [(decodeTarget spec c).getD c]
  | c :: next :: rest =>
    if c = quote then next :: decodeLoop rest
    else (decodeTarget spec c).getD c :: decodeLoop (next :: rest)

/-- `decode_leaf` behind the forms of whole names. -/
def decodeEdges (leaf : Path) : Path :=
  if spec.leftSpace && leaf.head? == some symbolSpace then ' ' :: decodeLoop spec leaf.tail
  else decodeLoop spec leaf

def decodeLeafWith (leaf : Path) : Path :=
  if leaf = [fullwidthDot] then ['.']
  else if leaf = [fullwidthDot, fullwidthDot] then ['.', '.']
  else decodeEdges spec leaf

variable (provider : ProviderType)

def encodeLeaf (leaf : Path) : Path := (encodeSpec provider).elim leaf (encodeLeafWith · leaf)

def decodeLeaf (leaf : Path) : Path := (encodeSpec provider).elim leaf (decodeLeafWith · leaf)

def joinSegments (path : Path) (f : Path → Path) : Path :=
  ['/'].intercalate ((splitSlash path).map fun seg => if seg.isEmpty then [] else f seg)

def encodePath (path : Path) : Path :=
  (encodeSpec provider).elim path fun _ => joinSegments path (encodeLeaf provider)

def decodePath (path : Path) : Path :=
  (encodeSpec provider).elim path fun _ => joinSegments path (decodeLeaf provider)

end AeroFtp.RestrictedChars
