/-
An unlocked Cryptomator vault, how it is walked and how host files are added to it
(`cryptomator.rs`).

A folder of the vault is an indirection.  Its entry, under the encrypted name, holds a
`dir.c9r` with the id of the folder, and what is in the folder lies where the hash of that id
leads.  The walk starts from the empty id and follows the ids it reads; adding a folder makes
a new id and writes it to the entry of that name, whether there was one or not.

AES-SIV, AES-GCM, SHA-1, the encodings and Unicode are parameters; what is drawn at random is
given by the number of the draw.
-/
import AeroFtp.Lib.Framing
import AeroFtp.Lib.Texts

namespace AeroFtp.Cryptomator

open Texts
open Framing (chunks)

abbrev Text := List Char
abbrev Bytes := List UInt8

structure Primitives where
  encKey : Bytes
  macKey : Bytes
  /-- AES-SIV by key, associated data, of which there may be none, and message. -/
  sealSiv : Bytes → List Bytes → Bytes → Bytes
  openSiv : Bytes → List Bytes → Bytes → Option Bytes
  base64urlEncode : Bytes → Text
  base64urlDecode : Text → Option Bytes
  sha1 : Bytes → Bytes
  base32Encode : Bytes → Text
  /-- AES-GCM by key, nonce, associated data and message. -/
  sealGcm : Bytes → Bytes → Bytes → Bytes → Bytes
  openGcm : Bytes → Bytes → Bytes → Bytes → Option Bytes
  toLowercase : Text → Text
  isWhitespace : Char → Bool

/-- What is drawn at random, by the number of the draw. -/
structure Draws where
  uuid : Nat → Text
  contentKey : Nat → Bytes
  headerNonce : Nat → Bytes
  chunkNonce : Nat → Nat → Bytes

/-! ### Names -/

section Names

variable (p : Primitives)

def aesSivEncrypt (plaintext associatedData : Bytes) : Bytes :=
  p.sealSiv (p.macKey ++ p.encKey) [associatedData] plaintext

def aesSivEncryptNoAd (plaintext : Bytes) : Bytes := p.sealSiv (p.macKey ++ p.encKey) [] plaintext

def aesSivDecrypt (ciphertext associatedData : Bytes) : Option Bytes :=
  p.openSiv (p.macKey ++ p.encKey) [associatedData] ciphertext

/-- Where the content of a folder lies, in the folder of the vault. -/
def Primitives.hashDirId (dirId : Text) : Text :=
  let encoded := p.base32Encode (p.sha1 (aesSivEncryptNoAd p (asBytes dirId)))
  "d/".toList ++ encoded.take 2 ++ '/' :: encoded.drop 2

def Primitives.encryptFilename (dirId name : Text) : Text :=
  p.base64urlEncode (aesSivEncrypt p (asBytes name) (asBytes dirId)) ++ ".c9r".toList

/-- Every error is none. -/
def Primitives.decryptFilename (dirId encryptedName : Text) : Option Text := do
  let namePart ← stripSuffix encryptedName ".c9r".toList
  let ciphertext ← p.base64urlDecode namePart
  let plaintext ← aesSivDecrypt p ciphertext (asBytes dirId)
  fromUtf8 plaintext

end Names

/-! ### The content of a file -/

/-- `u64::to_be_bytes`. -/
def toBeBytes (n : Nat) : Bytes := (List.range 8).map fun k => UInt8.ofNat (n / 256 ^ (7 - k))

def chunkAad (chunkNum : Nat) (headerNonce : Bytes) : Bytes := toBeBytes chunkNum ++ headerNonce

/-- The clear chunks of a file; an empty file has one, empty chunk. -/
def cleartextChunks (plaintext : Bytes) : List Bytes :=
  if plaintext.isEmpty then [[]] else chunks 32768 plaintext

variable (p : Primitives)

/-- What `encrypt_file_inner` writes. -/
def encryptData (contentKey headerNonce : Bytes) (chunkNonce : Nat → Bytes)
    (plaintext : Bytes) : Bytes :=
  let headerPayload := List.replicate 8 0 ++ contentKey
  headerNonce ++ p.sealGcm p.encKey headerNonce [] headerPayload ++
    ((cleartextChunks plaintext).mapIdx fun i chunk =>
      chunkNonce i ++ p.sealGcm contentKey (chunkNonce i) (chunkAad i headerNonce) chunk).flatten

/-- The loop of `decrypt_data_to_writer`. -/
def decryptChunks (contentKey headerNonce : Bytes) : Nat → List Bytes → Option Bytes
  | _, [] => some []
  | chunkNum, chunk :: rest =>
    if chunk.length < 28 then none
    else
      (p.openGcm contentKey (chunk.take 12) (chunkAad chunkNum headerNonce) (chunk.drop 12)).bind
        fun decrypted => (decryptChunks contentKey headerNonce (chunkNum + 1) rest).map
          (decrypted ++ ·)

/-- `decrypt_data_to_writer`; every error is none. -/
def decryptData (data : Bytes) : Option Bytes :=
  if data.length < 68 then none
  else
    (p.openGcm p.encKey (data.take 12) [] ((data.drop 12).take 56)).bind fun header =>
      if header.length < 40 then none
      else decryptChunks p ((header.drop 8).take 32)
        (data.take 12) 0 (chunks (32768 + 28) (data.drop 68))

/-! ### The vault on disk -/

/-- The file `dir.c9r` of a folder entry. -/
inductive DirFile
  | missing
  /-- Too large, or not text. -/
  | unreadable
  | text (content : Text)
  deriving DecidableEq, Repr

inductive Node
  | file (data : Bytes)
  | folder (dir : DirFile)
  deriving DecidableEq, Repr

/-- An entry of a folder on disk: one under its encrypted name, or one whose name was shortened
(none where `name.c9s` cannot be read; the id of the folder, if it is one). -/
inductive Slot
  | c9r (name : Text) (node : Node)
  | c9s (longName : Option Text) (dir : Option Text)
  deriving DecidableEq, Repr

/-- The folders on disk, by where they lie; entries in the order in which they are read. -/
structure Vault where
  folders : Text → Option (List Slot)

variable (v : Vault)

def Vault.set (path : Text) (slots : List Slot) : Vault :=
  ⟨Function.update v.folders path (some slots)⟩

def Slot.isC9r (name : Text) : Slot → Bool
  | .c9r n _ => n == name
  | .c9s _ _ => false

/-- What lies under an encrypted name. -/
def findC9r (name : Text) : List Slot → Option Node
  | [] => none
  | .c9r n node :: slots => if n = name then some node else findC9r name slots
  | .c9s _ _ :: slots => findC9r name slots

/-- An entry is written; the order in which entries are read is any, and it comes last. -/
def putC9r (name : Text) (node : Node) (slots : List Slot) : List Slot :=
  slots.filter (!·.isC9r name) ++ [.c9r name node]

/-! ### Listing and walking -/

structure CryptomatorEntry where
  name : Text
  isDir : Bool
  dirId : Option Text
  deriving DecidableEq, Repr

def trim (text : Text) : Text :=
  ((text.dropWhile p.isWhitespace).reverse.dropWhile p.isWhitespace).reverse

/-- What an entry on disk is listed as: none where listing fails, an inner none where the entry
is left out because its name does not decrypt. -/
def listSlot (dirId : Text) : Slot → Option (Option CryptomatorEntry)
  | .c9r name (.file _) => some ((p.decryptFilename dirId name).map fun n => ⟨n, false, none⟩)
  | .c9r _ (.folder .unreadable) => none
  | .c9r name (.folder .missing) =>
    some ((p.decryptFilename dirId name).map fun n => ⟨n, true, some []⟩)
  | .c9r name (.folder (.text id)) =>
    some ((p.decryptFilename dirId name).map fun n => ⟨n, true, some (trim p id)⟩)
  | .c9s none _ => none
  | .c9s (some longName) dir =>
    some ((p.decryptFilename dirId (trim p longName)).map fun n =>
      ⟨n, dir.isSome, dir.map (trim p)⟩)

/-- The order of texts, character by character. -/
def textLe : Text → Text → Bool
  | [], _ => true
  | _ :: _, [] => false
  | a :: as, b :: bs => if a = b then textLe as bs else a.toNat < b.toNat

/-- Folders first, then by name, without regard to case. -/
def entryLe (a b : CryptomatorEntry) : Bool :=
  if a.isDir = b.isDir then textLe (p.toLowercase a.name) (p.toLowercase b.name) else a.isDir

def listSlots (dirId : Text) : List Slot → Option (List CryptomatorEntry)
  | [] => some []
  | slot :: slots =>
    (listSlot p dirId slot).bind fun entry =>
      (listSlots dirId slots).map (entry.toList ++ ·)

/-- `list_dir_inner`; every error is none. -/
def listDirInner (dirId : Text) : Option (List CryptomatorEntry) :=
  (v.folders (p.hashDirId dirId)).bind fun slots =>
    (listSlots p dirId slots).map (List.insertionSort fun a b => entryLe p a b = true)

def isSafeSegment (name : Text) : Bool :=
  !name.isEmpty && name != ['.'] && name != ['.', '.'] && !name.contains '/'
    && !name.contains '\\' && !name.contains '\x00'

/-- An entry of the tree; its path by the names on the way, each a safe segment. -/
structure ReadableEntry where
  relPath : List Text
  isDir : Bool
  handle : Text
  deriving DecidableEq, Repr

def maxDepth : Nat := 512

/-- One turn of the loop of `collect_tree`; `visit` goes into a folder. -/
def collectEntry
    (visit : Text → List Text → List ReadableEntry × List Text → List ReadableEntry × List Text)
    (dirId : Text) (relPath : List Text) (acc : List ReadableEntry × List Text)
    (e : CryptomatorEntry) : List ReadableEntry × List Text :=
  if !isSafeSegment e.name then acc
  else if e.isDir then
    let out := acc.1 ++ [⟨relPath ++ [e.name], true, []⟩]
    match e.dirId with
    | some child => visit child (relPath ++ [e.name]) (out, acc.2)
    | none => (out, acc.2)
  else (acc.1 ++ [⟨relPath ++ [e.name], false, dirId⟩], acc.2)

/-- `collect_tree`, with the depth that is left: what was collected and what was visited. -/
def collectTree (v : Vault) :
    Nat → Text → List Text → List ReadableEntry × List Text → List ReadableEntry × List Text
  | 0, _, _, acc => acc
  | depth + 1, dirId, relPath, acc =>
    if acc.2.contains dirId then acc
    else
      match listDirInner p v dirId with
      | none => (acc.1, acc.2 ++ [dirId])
      | some entries =>
        entries.foldl (collectEntry (collectTree v depth) dirId relPath) (acc.1, acc.2 ++ [dirId])

/-- `CryptomatorReadable::walk`. -/
def walk : List ReadableEntry := (collectTree p v maxDepth [] [] ([], [])).1

/-- `decrypt_file_to_writer`: what a file decrypts to, if it is there and reads. -/
def decryptFile (dirId filename : Text) : Option Bytes :=
  match (v.folders (p.hashDirId dirId)).bind (findC9r (p.encryptFilename dirId filename)) with
  | some (.file data) => decryptData p data
  | _ => none

/-- `CryptomatorReadable::read_file`. -/
def readFile (entry : ReadableEntry) : Option Bytes :=
  decryptFile p v entry.handle (entry.relPath.getLastD [])

/-- The files a walk reaches, each with what it reads as. -/
def reached : List (List Text × Option Bytes) :=
  ((walk p v).filter (!·.isDir)).map fun e => (e.relPath, readFile p v e)

/-! ### Adding host files -/

/-- `encrypt_file_inner`, of a file that was read: none where a folder is in its place. -/
def encryptFileInner (draws : Draws) (n : Nat) (v : Vault) (dirId filename : Text)
    (plaintext : Bytes) : Option Vault :=
  let path := p.hashDirId dirId
  let name := p.encryptFilename dirId filename
  let slots := (v.folders path).getD []
  match findC9r name slots with
  | some (.folder _) => none
  | _ => some
      (v.set path (putC9r name (.file (encryptData p (draws.contentKey n) (draws.headerNonce n)
      (draws.chunkNonce n) plaintext)) slots))

/-- `create_dir_inner`, with the id that was drawn: none where a file is in its place. -/
def createDirInner (parentDirId name newDirId : Text) : Option Vault :=
  let path := p.hashDirId parentDirId
  let encrypted := p.encryptFilename parentDirId name
  let slots := (v.folders path).getD []
  match findC9r encrypted slots with
  | some (.file _) => none
  | _ =>
    let v := v.set path (putC9r encrypted (.folder (.text newDirId)) slots)
    let child := p.hashDirId newDirId
    some (v.set child ((v.folders child).getD []))

/-- Why an entry is skipped. -/
inductive Skip
  /-- Its metadata, its name or the entry itself cannot be read. -/
  | unreadable
  | symlink
  | notRegular
  | readDir
  | createDir
  | encryptFile
  deriving DecidableEq, Repr

/-- Host paths, or the entries of a host folder: one, and those that follow.  Names are as they
are made into text, so they may be equal. -/
inductive HostEntries
  | nil
  /-- One that is skipped at once. -/
  | skipped (why : Skip) (rest : HostEntries)
  /-- A regular file, with what reading it gives. -/
  | file (name : Text) (content : Option Bytes) (rest : HostEntries)
  | folder (name : Text) (readable : Bool) (inside rest : HostEntries)
  deriving Repr

structure CryptomatorIngestReport where
  files : Nat
  dirs : Nat
  skipped : List Skip
  deriving DecidableEq, Repr

structure Ingest where
  vault : Vault
  /-- The draws so far. -/
  drawn : Nat
  report : CryptomatorIngestReport

def Ingest.skip (s : Ingest) (why : Skip) : Ingest :=
  { s with report := { s.report with skipped := s.report.skipped ++ [why] } }

/-- A file of the host. -/
def ingestFile (draws : Draws) (parentDirId name : Text) (content : Option Bytes)
    (s : Ingest) : Ingest :=
  match content.bind (encryptFileInner p draws s.drawn s.vault parentDirId name) with
  | some vault =>
    { s with vault, drawn := s.drawn + 1, report := { s.report with files := s.report.files + 1 } }
  | none => s.skip .encryptFile

/-- `ingest_path_inner`, for each of some host paths. -/
def ingestPathInner (draws : Draws) : HostEntries → Text → Ingest → Ingest
  | .nil, _, s => s
  | .skipped why rest, parentDirId, s => ingestPathInner draws rest parentDirId (s.skip why)
  | .file name content rest, parentDirId, s =>
    ingestPathInner draws rest parentDirId (ingestFile p draws parentDirId name content s)
  | .folder name readable inside rest, parentDirId, s =>
    let childDirId := draws.uuid s.drawn
    match createDirInner p s.vault parentDirId name childDirId with
    | none => ingestPathInner draws rest parentDirId (s.skip .createDir)
    | some vault =>
      let s : Ingest :=
        { s with
          vault, drawn := s.drawn + 1, report := { s.report with dirs := s.report.dirs + 1 } }
      let s := if readable then ingestPathInner draws inside childDirId s else s.skip .readDir
      ingestPathInner draws rest parentDirId s

/-- `cryptomator_encrypt_paths`. -/
def encryptPaths (draws : Draws) (v : Vault) (dirId : Text) (inputs : HostEntries) : Ingest :=
  ingestPathInner p draws inputs dirId ⟨v, 0, ⟨0, 0, []⟩⟩

end AeroFtp.Cryptomator
