/-
How a download claims its temporary, `temp_claim` of `providers/atomic_write.rs`.

Each writer holds an exclusive lock on the temporary it writes.  A temporary found at the name
is a live writer's while its lock is held, and stale otherwise: a stale one is removed, under
its lock, and made anew.  Every claim and every removal takes the lock first and then looks
whether the name still points at the file that was locked.

Any number of callers take one step at a time: an exclusive create, an open, a look at the
name, a try-lock, an identity check, an unlink, a rename, an unlock.  Locks are usable: a
try-lock is refused only while another open file has the lock.  Every other call of the file
system may fail.  A file made while the name is free gets any inode number that no file at the
name and no open file has.
-/
import Mathlib.Data.Fintype.Basic

namespace AeroFtp.Providers.TempClaim

/-! ### What is at the name -/

/-- A file, told from every other one that is or was there. -/
abbrev FileId := Nat

inductive Kind
  | regular
  /-- A FIFO, a socket or a device. -/
  | special
  deriving DecidableEq, Repr

inductive Node
  | file (f : FileId)
  | link
  | folder
  deriving DecidableEq, Repr

/-! ### The callers -/

/-- The functions that are called. -/
inductive Op
  | create
  | createFresh
  | openToAppend
  | removeUnlessLive
  deriving DecidableEq, Repr

/-- What `take_if_stale` is called from. -/
inductive Ret
  | createWith
  | removeUnlessLive
  deriving DecidableEq, Repr

/-- How `take_if_stale` ends, once it has found a file or a link. -/
inductive Found
  | stale
  | live
  /-- An error of the kind `NotFound`. -/
  | gone
  /-- Any other error. -/
  | failed
  deriving DecidableEq, Repr

/-- Where a caller is: what it does next. -/
inductive Pc
  | idle
  /-- `create_with`: the exclusive create. -/
  | creating (probed : Bool)
  /-- `open_to_append`: the open. -/
  | opening
  /-- `claim`: the try-lock of the file it has opened. -/
  | claiming (f : FileId)
  /-- `claim`: the identity check. -/
  | checking (f : FileId)
  /-- The check has failed: the file is closed. -/
  | refused (f : FileId)
  /-- A claim was returned: the caller writes the file. -/
  | holding (f : FileId)
  /-- The holder is done with the name: the lock is released. -/
  | finished (f : FileId)
  /-- `take_if_stale`: the look at the name. -/
  | looking (ret : Ret)
  /-- `remove_leftover_link`: the lock on the folder. -/
  | linkFound (ret : Ret)
  /-- `remove_if_link`: the second look. -/
  | linkLocked (ret : Ret)
  /-- `remove_if_link`: the removal. -/
  | linkSeen (ret : Ret)
  /-- The lock on the folder is released. -/
  | linkDone (ret : Ret) (found : Found)
  /-- `open_to_probe`. -/
  | probing (ret : Ret)
  /-- `take_if_stale`: the try-lock. -/
  | probed (f : FileId) (ret : Ret)
  /-- The identity check. -/
  | probeLocked (f : FileId) (ret : Ret)
  /-- The removal. -/
  | probeSame (f : FileId) (ret : Ret)
  /-- The lock is released. -/
  | probeDone (f : FileId) (ret : Ret) (found : Found)
  /-- `remove_unless_live`: the removal by name of what takes no lock. -/
  | removing
  deriving DecidableEq, Repr

/-- The file a caller has open. -/
def Pc.openFile : Pc → Option FileId
  | .claiming f | .checking f | .refused f | .holding f | .finished f
  | .probed f _ | .probeLocked f _ | .probeSame f _ | .probeDone f _ _ => some f
  | _ => none

/-- What a step is: the next one of the call, with what the file system answers, or what a
caller outside of a call does. -/
inductive Choice
  | start (op : Op)
  /-- The step is taken. -/
  | go
  /-- The exclusive create makes a file with this inode number. -/
  | made (number : Nat)
  /-- The call to the file system fails. -/
  | fail
  /-- A holder renames the temporary to its destination. -/
  | rename
  /-- A holder removes the temporary. -/
  | unlink
  /-- A holder leaves the temporary where it is. -/
  | keep
  /-- The caller's process ends. -/
  | crash
  deriving DecidableEq, Repr

structure State (n : Nat) where
  name : Option Node
  /-- What was renamed last. -/
  dest : Option Node
  pc : Fin n → Pc
  /-- Whose open file has the lock. -/
  lock : FileId → Option (Fin n)
  folderLock : Option (Fin n)
  kind : FileId → Kind
  number : FileId → Nat
  /-- Files made so far. -/
  next : FileId

namespace State

variable {n : Nat}

variable (s : State n)

def goto (c : Fin n) (pc : Pc) : State n :=
  { s with pc := Function.update s.pc c pc }

/-- The inode number belongs to no file at the name and to no open one. -/
def numberFree (number : Nat) : Bool :=
  (match s.name with
    | some (.file f) => s.number f != number
    | _ => true) &&
    (List.finRange n).all fun c => (s.pc c).openFile.all fun f => s.number f != number

def makeFile (number : Nat) : State n :=
  { s with
    name := some (.file s.next)
    kind := Function.update s.kind s.next .regular
    number := Function.update s.number s.next number
    lock := Function.update s.lock s.next none
    next := s.next + 1 }

def setLock (f : FileId) (owner : Option (Fin n)) : State n :=
  { s with lock := Function.update s.lock f owner }

/-- `remove_file`, where the name holds something that it removes. -/
def removeFile : Option (State n) :=
  match s.name with
  | none | some .folder => none
  | some _ => some { s with name := none }

/-- Whether the name still points at the file this handle has open. -/
def sameFile (f : FileId) : Bool :=
  match s.name with
  | some (.file g) => s.number g == s.number f
  | _ => false

end State

/-! ### The steps -/

section Step

variable {n : Nat}

/-- Where `take_if_stale` returns to. -/
def afterProbe : Ret → Found → Pc
  | .createWith, .stale | .createWith, .gone => .creating true
  | .createWith, .live | .createWith, .failed => .idle
  | .removeUnlessLive, _ => .idle

/-- Where it returns to if what it found takes no lock. -/
def afterUnknown : Ret → Pc
  | .createWith => .idle
  | .removeUnlessLive => .removing

def Op.first : Op → Pc
  | .create | .createFresh => .creating false
  | .openToAppend => .opening
  | .removeUnlessLive => .looking .removeUnlessLive

/-- What each choice leads to, where it can be made. -/
abbrev Outcome (n : Nat) := Choice → Option (State n)

variable (s : State n) (c : Fin n) (f : FileId) (ret : Ret) (folderLocks : Bool)

/-- The caller's process ends: its files are closed, and with them its locks. -/
def crash : State n :=
  { s with
    lock := fun f => if s.lock f = some c then none else s.lock f
    folderLock := if s.folderLock = some c then none else s.folderLock }.goto c .idle

/-- The exclusive create finds the name taken. -/
def nameTaken (probed : Bool) : Pc := if probed then .idle else .looking .createWith

def stepCreating (probed : Bool) : Outcome n
  | .made number =>
    match s.name with
    | none =>
      if s.numberFree number then some ((s.makeFile number).goto c (.claiming s.next)) else none
    | some _ => none
  | .go =>
    match s.name with
    | none => none
    | some _ => some (s.goto c (nameTaken probed))
  | .fail => some (s.goto c .idle)
  | _ => none

def stepOpening : Outcome n
  | .go =>
    match s.name with
    | some (.file f) => some (s.goto c (.claiming f))
    -- what a link leads to is another file than the link, which fails the identity check
    | _ => some (s.goto c .idle)
  | .fail => some (s.goto c .idle)
  | _ => none

def stepClaiming : Outcome n
  | .go =>
    match s.lock f with
    | none => some ((s.setLock f (some c)).goto c (.checking f))
    | some _ => some (s.goto c .idle)
  | _ => none

def stepChecking : Outcome n
  | .go => some (s.goto c (if s.sameFile f then .holding f else .refused f))
  | .fail => some (s.goto c (.refused f))
  | _ => none

def stepHolding : Outcome n
  | .rename =>
    match s.name with
    | none => none
    | some node => some ({ s with name := none, dest := some node }.goto c (.finished f))
  | .unlink => s.removeFile.map (State.goto · c (.finished f))
  | .keep => some (s.goto c (.finished f))
  | _ => none

/-- The release of a lock, and where the caller goes on. -/
def stepRelease (pc : Pc) : Outcome n
  | .go => some ((s.setLock f none).goto c pc)
  | _ => none

def stepLooking : Outcome n
  | .go =>
    match s.name with
    | none => some (s.goto c (afterProbe ret .gone))
    | some .link => some (s.goto c (.linkFound ret))
    | some .folder => some (s.goto c (afterUnknown ret))
    | some (.file f) =>
      match s.kind f with
      | .regular => some (s.goto c (.probing ret))
      | .special => some (s.goto c (afterUnknown ret))
  | .fail => some (s.goto c (afterProbe ret .failed))
  | _ => none

/-- The lock on the folder is waited for; where it cannot be taken the removal goes on
without it. -/
def stepLinkFound (s : State n) (c : Fin n) (ret : Ret) : Outcome n
  | .go =>
    if folderLocks then
      match s.folderLock with
      | none => some ({ s with folderLock := some c }.goto c (.linkLocked ret))
      | some _ => none
    else some (s.goto c (.linkLocked ret))
  | _ => none

def stepLinkLocked : Outcome n
  | .go => some (s.goto c (if s.name = some .link then .linkSeen ret else .linkDone ret .stale))
  | .fail => some (s.goto c (.linkDone ret .stale))
  | _ => none

def stepLinkSeen : Outcome n
  | .go =>
    match s.removeFile with
    | some s => some (s.goto c (.linkDone ret .stale))
    | none => some (s.goto c (.linkDone ret (if s.name = none then .stale else .failed)))
  | .fail => some (s.goto c (.linkDone ret .failed))
  | _ => none

def stepLinkDone (found : Found) : Outcome n
  | .go =>
    some ({ s with folderLock := if s.folderLock = some c then none else s.folderLock }.goto c
      (afterProbe ret found))
  | _ => none

/-- The open follows no link, and what is opened of a folder cannot be removed as a file. -/
def stepProbing : Outcome n
  | .go =>
    match s.name with
    | some (.file f) => some (s.goto c (.probed f ret))
    | none => some (s.goto c (afterProbe ret .gone))
    | some _ => some (s.goto c (afterProbe ret .failed))
  | .fail => some (s.goto c (afterProbe ret .failed))
  | _ => none

def stepProbed : Outcome n
  | .go =>
    match s.lock f with
    | none => some ((s.setLock f (some c)).goto c (.probeLocked f ret))
    | some _ => some (s.goto c (afterProbe ret .live))
  | _ => none

def stepProbeLocked : Outcome n
  | .go => some (s.goto c (if s.sameFile f then .probeSame f ret else .probeDone f ret .live))
  | .fail => some (s.goto c (.probeDone f ret .live))
  | _ => none

def stepProbeSame : Outcome n
  | .go =>
    match s.removeFile with
    | some s => some (s.goto c (.probeDone f ret .stale))
    | none => some (s.goto c (.probeDone f ret (if s.name = none then .gone else .failed)))
  | .fail => some (s.goto c (.probeDone f ret .failed))
  | _ => none

def stepRemoving : Outcome n
  | .go =>
    match s.removeFile with
    | some s => some (s.goto c .idle)
    | none => some (s.goto c .idle)
  | .fail => some (s.goto c .idle)
  | _ => none

def stepIdle : Outcome n
  | .start op => some (s.goto c op.first)
  | _ => none

/-- The next step of a caller, by where it is. -/
def stepAt (s : State n) (c : Fin n) : Pc → Outcome n
  | .idle => stepIdle s c
  | .creating probed => stepCreating s c probed
  | .opening => stepOpening s c
  | .claiming f => stepClaiming s c f
  | .checking f => stepChecking s c f
  | .refused f => stepRelease s c f .idle
  | .holding f => stepHolding s c f
  | .finished f => stepRelease s c f .idle
  | .looking ret => stepLooking s c ret
  | .linkFound ret => stepLinkFound folderLocks s c ret
  | .linkLocked ret => stepLinkLocked s c ret
  | .linkSeen ret => stepLinkSeen s c ret
  | .linkDone ret found => stepLinkDone s c ret found
  | .probing ret => stepProbing s c ret
  | .probed f ret => stepProbed s c f ret
  | .probeLocked f ret => stepProbeLocked s c f ret
  | .probeSame f ret => stepProbeSame s c f ret
  | .probeDone f ret found => stepRelease s c f (afterProbe ret found)
  | .removing => stepRemoving s c

/-- One step of one caller; `folderLocks` says whether the folder can be opened and locked. -/
def step (s : State n) (event : Fin n × Choice) : Option (State n) :=
  match event.2 with
  | .crash => some (crash s event.1)
  | choice => stepAt folderLocks s event.1 (s.pc event.1) choice

/-- Before the first call: nothing is open and nothing locked, whatever is at the name. -/
def start (name : Option Node) (kind : FileId → Kind) (number : FileId → Nat) (next : FileId) :
    State n :=
  { name, dest := none, pc := fun _ => .idle, lock := fun _ => none, folderLock := none,
    kind, number, next }

end Step

end AeroFtp.Providers.TempClaim
