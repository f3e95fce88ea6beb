/-
Which local name stands for which remote name, `sync_names.rs`.

Two names are one file when they are the same up to canonical equivalence of Unicode, NFC.
`pairPaths` walks the two inventories side by side, folder by folder.  In a folder an exact
name wins, and a pair of equivalent names needs each to be alone with its form; what has no
counterpart is paired with nothing, under the path it would have on the other side.

An inventory lists its entries in the order in which the `HashMap` is iterated, and any
order is possible.  The work list is a stack: pairing is a loop with fuel.
-/
import AeroFtp.Lib.Worklist
import AeroFtp.Sync.Paths
import Mathlib.Data.List.AList

namespace AeroFtp.Sync

open Std

/-- A `HashMap`: its entries in the order of the iteration. -/
abbrev HashMap (α β : Type) := AList (fun _ : α => β)

/-- A `DateTime<Utc>`: nanoseconds since the epoch. -/
abbrev DateTime := Int

/-- A file, or a directory, as a side lists it. -/
structure FileInfo where
  size : Nat
  modified : Option DateTime
  isDir : Bool
  checksum : Option String
  checksumAlg : Option String
  deriving DecidableEq

abbrev Inventory := HashMap Path FileInfo

/-- The normal form of a name: it is taken once, it does not make a name empty, and it
leaves the separator alone. -/
structure Nfc where
  form : Path → Path
  idem : ∀ name, form (form name) = form name
  nil : ∀ name, form name = [] ↔ name = []
  slash : ∀ name, '/' ∈ form name ↔ '/' ∈ name

/-- A key of each inventory, where there is one, and the path it has or would have on each
side. -/
structure Pair where
  localKey : Option Path
  remoteKey : Option Path
  localPath : Path
  remotePath : Path
  blocked : Bool
  deriving DecidableEq

/-! ### The tree of an inventory -/

/-- The names in a folder; `true` is a directory. -/
abbrev Siblings := TreeMap Path Bool

abbrev Tree := TreeMap Path Siblings

def join (parent name : Path) : Path :=
  if parent = [] then name else parent ++ '/' :: name

/-- The inner loop of `tree`: each component is put under the path before it. -/
def insertParts (isDir : Bool) : Tree → Path → List Path → Tree
  | tree, _, [] => tree
  | tree, parent, name :: rest =>
    insertParts isDir (tree.insert parent ((tree.getD parent ∅).insert name (rest ≠ [] || isDir)))
      (join parent name) rest

/-- `validate_relative_path(path).is_ok()`. -/
def accepted (path : Path) : Bool := (validateRelativePath path).toBool

/-- One turn of the outer loop: a path that is not accepted is passed over. -/
def insertEntry (tree : Tree) (entry : Sigma fun _ : Path => FileInfo) : Tree :=
  if accepted entry.1 then insertParts entry.2.isDir tree [] (splitSlash entry.1) else tree

def tree (entries : Inventory) : Tree := entries.entries.foldl insertEntry ∅

/-- `parent.and_then(|p| tree.get(p)).unwrap_or(&empty)`. -/
def siblingsAt (tree : Tree) (parent : Option Path) : Siblings :=
  (parent.bind fun p => tree[p]?).getD ∅

/-! ### The names of one folder -/

/-- The sides a name of a folder is on. -/
inductive Sides
  | both (ln rn : Path)
  | localOnly (ln : Path)
  | remoteOnly (rn : Path)
  deriving DecidableEq

namespace Sides

def ln : Sides → Option Path
  | both ln _ => some ln
  | localOnly ln => some ln
  | remoteOnly _ => none

def rn : Sides → Option Path
  | both _ rn => some rn
  | localOnly _ => none
  | remoteOnly rn => some rn

/-- `ln.or(rn).unwrap()`. -/
def localName : Sides → Path
  | both ln _ => ln
  | localOnly ln => ln
  | remoteOnly rn => rn

/-- `rn.or(ln).unwrap()`. -/
def remoteName : Sides → Path
  | both _ rn => rn
  | localOnly ln => ln
  | remoteOnly rn => rn

/-- The two names are a file and a directory. -/
def collision (ls rs : Siblings) : Sides → Bool
  | both ln rn => ls[ln]? ≠ rs[rn]?
  | _ => false

/-- `ln.is_some_and(|n| ls[n]) || rn.is_some_and(|n| rs[n])`. -/
def isFolder (ls rs : Siblings) (sides : Sides) : Bool :=
  sides.ln.any (fun n => ls[n]? = some true) || sides.rn.any (fun n => rs[n]? = some true)

end Sides

section
variable (nfc : Nfc)

/-- `groups.get(&key)`: the siblings with that form, in their order. -/
def group (siblings : Siblings) (key : Path) : List Path := siblings.keys.filter (nfc.form · = key)

/-- A local name with its counterpart, and whether it is without one for ambiguity. -/
def pairLocal (ls rs : Siblings) (name : Path) : Sides × Bool :=
  if rs.contains name then (.both name name, false)
  else
    match group nfc ls (nfc.form name), group nfc rs (nfc.form name) with
    | [_], [counterpart] => (.both name counterpart, false)
    | _, [] => (.localOnly name, false)
    | _, _ => (.localOnly name, true)

/-- The remote names that no local name took. -/
def unused (ls rs : Siblings) : List Path :=
  rs.keys.filter fun name => !(ls.keys.filterMap fun n =>
    (pairLocal nfc ls rs n).1.rn).contains name

/-- The names of a folder, the local ones first. -/
def pairNames (ls rs : Siblings) : List (Sides × Bool) :=
  ls.keys.map (pairLocal nfc ls rs) ++
    (unused nfc ls rs).map fun name => (.remoteOnly name, !(group nfc ls (nfc.form name)).isEmpty)

end

/-! ### The walk -/

/-- A folder to visit: its path on each side that has it, and the path it has or would have
there. -/
structure Folder where
  lp : Option Path
  rp : Option Path
  ld : Path
  rd : Path
  blocked : Bool
  deriving DecidableEq

namespace Folder

/-- The roots of the two sides. -/
def root : Folder := ⟨some [], some [], [], [], false⟩

/-- What stands in `folder` under the names `sides`. -/
def child (folder : Folder) (ls rs : Siblings) (sides : Sides) (ambiguous : Bool) : Folder where
  lp := sides.ln.bind fun n => folder.lp.map (join · n)
  rp := sides.rn.bind fun n => folder.rp.map (join · n)
  ld := join folder.ld sides.localName
  rd := join folder.rd sides.remoteName
  blocked := folder.blocked || ambiguous || sides.collision ls rs

def toPair (folder : Folder) : Pair :=
  ⟨folder.lp, folder.rp, folder.ld, folder.rd, folder.blocked⟩

/-- A side lists it. -/
def listed (locals remotes : Inventory) (folder : Folder) : Bool :=
  folder.lp.any (· ∈ locals) || folder.rp.any (· ∈ remotes)

end Folder

section
variable (nfc : Nfc) (locals remotes : Inventory)

/-- What stands in `folder`: each name with the folder it is or would be. -/
def children (folder : Folder) : List (Sides × Folder) :=
  let ls := siblingsAt (tree locals) folder.lp
  let rs := siblingsAt (tree remotes) folder.rp
  (pairNames nfc ls rs).map fun (sides, ambiguous) => (sides, folder.child ls rs sides ambiguous)

/-- One turn of the loop: the pairs of a folder, and the folders in it. -/
def visit (folder : Folder) : List Pair × List Folder :=
  let ls := siblingsAt (tree locals) folder.lp
  let rs := siblingsAt (tree remotes) folder.rp
  let below := children nfc locals remotes folder
  (((below.map Prod.snd).filter (Folder.listed locals remotes)).map Folder.toPair,
    (below.filter fun c => c.1.isFolder ls rs).map Prod.snd)

def pairPaths (fuel : Nat) : Option (List Pair) :=
  Worklist.walk (visit nfc locals remotes) fuel [Folder.root] []

end

end AeroFtp.Sync
