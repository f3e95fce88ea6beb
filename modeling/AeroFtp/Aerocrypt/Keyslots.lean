/-
The associated data of the keys in a v4 header (`aerocrypt/keyslots.rs`).

Each wrapped key is sealed with a label and with what it belongs to: a slot's key with all that
is public of the slot.
-/
import AeroFtp.Aerocrypt.Overlay
import AeroFtp.Lib.Codes

namespace AeroFtp.Aerocrypt

open LittleEndian Codes

inductive SlotType
  | passphrase
  | keyfile
  | recovery
  | fido2Hmac
  | and
  | threshold
  deriving DecidableEq, Repr

def SlotType.tag : SlotType → UInt8
  | .passphrase => 1
  | .keyfile => 2
  | .recovery => 3
  | .fido2Hmac => 4
  | .and => 5
  | .threshold => 6

structure Argon2Params where
  mKib : UInt32
  t : UInt32
  p : UInt32
  deriving DecidableEq, Repr

structure AndMember where
  kind : SlotType
  salt : Bytes
  kdf : Option Argon2Params
  credentialId : Option Bytes
  hmacSalt : Option Bytes
  deriving DecidableEq, Repr

inductive SlotBinding
  | none
  | recovery (vaultPrefix : String)
  | fido2 (credentialId hmacSalt : Bytes)
  | and (members : List AndMember)
  deriving DecidableEq, Repr

/-- An array of `VAULT_ID_SIZE` bytes. -/
abbrev VaultId := { id : Bytes // id.length = 16 }

def u32Le (n : UInt32) : Bytes := toLeBytes 4 n.toNat

def encodeKdf : Option Argon2Params → Bytes
  | some params => 1 :: (u32Le params.mKib ++ (u32Le params.t ++ u32Le params.p))
  | none => [0]

def encodeCredential : Option Bytes → Option Bytes → Bytes
  | some cid, some hs => 1 :: (lengthPrefixed 4 cid ++ lengthPrefixed 4 hs)
  | _, _ => [0]

/-- One turn of the loop of `encode_binding` over the members. -/
def encodeMember (m : AndMember) : Bytes :=
  m.kind.tag :: (lengthPrefixed 4 m.salt
    ++ (encodeKdf m.kdf ++ encodeCredential m.credentialId m.hmacSalt))

def encodeBinding : SlotBinding → Bytes
  | .none => []
  | .recovery vaultPrefix => vaultPrefix.toByteArray.data.toList
  | .fido2 credentialId hmacSalt => lengthPrefixed 4 credentialId ++ lengthPrefixed 4 hmacSalt
  | .and members => toLeBytes 4 members.length ++ members.flatMap encodeMember

variable (vaultId : VaultId)

def aadVk (epoch : UInt32) : Bytes :=
  ascii "aerocrypt v4 vk-wrap" ++ (vaultId.1 ++ versionV4 :: u32Le epoch)

def aadOmk : Bytes := ascii "aerocrypt v4 omk-wrap" ++ (vaultId.1 ++ [versionV4])

def aadSlot (epoch id : UInt32) (kind : SlotType) (salt : Bytes) (kdf : Option Argon2Params)
    (binding : SlotBinding) : Bytes :=
  ascii "aerocrypt v4 slot-wrap" ++ (vaultId.1 ++ versionV4 :: (u32Le epoch ++ (u32Le id ++
    kind.tag :: (lengthPrefixed 4 salt
      ++ (encodeKdf kdf ++ lengthPrefixed 4 (encodeBinding binding))))))

end AeroFtp.Aerocrypt
