/-
The values of long extended attributes, `aerorsync/real_wire.rs` section 5.

A value that is too long for the file list is its digest there, and its bytes follow in a
section of records.  A record names its attribute by the distance from the one before, and
a distance of zero ends the section.
-/
import AeroFtp.Aerorsync.RealWire.FileListEncode

namespace AeroFtp.RealWire

open Reader (take fail)

def XattrDatum.isOutOfBand (datum : XattrDatum) : Bool := datum.len > maxFullDatum

/-- The records of the attributes from `index` on; a value that is not there panics. -/
def encodeXattrRecords (index : Nat) (previous : Int) : List XattrPair → Option (List UInt8)
  | [] => some (encodeVarint 0)
  | pair :: pairs =>
    if !pair.datum.isOutOfBand then encodeXattrRecords (index + 1) previous pairs
    else
      match pair.datum with
      | .deferred _ _ => none
      | .inline value => do
          let rest ← encodeXattrRecords (index + 1) index pairs
          return encodeVarint (Int32.ofInt (index - previous)) ++
            (encodeVarint (Int32.ofNat value.length) ++ (value ++ rest))

def encodeXattrDatumSection (pairs : List XattrPair) : Option (List UInt8) :=
  encodeXattrRecords 0 (-1) pairs

def invalidSection {α : Type} (field : String) (value : Int) : Decoder α :=
  fail fun _ => .xattrDatumSectionInvalid field value

/-- The loop over the records.  Every record names a later attribute than the one before, so
that with one turn more than there are attributes the loop comes to its end. -/
def resolveXattrRecords (md5 : List UInt8 → List UInt8) :
    Nat → Int → List XattrPair → Decoder (List XattrPair)
  | 0, _, _ => invalidSection "skip" 0
  | turns + 1, previous, pairs => do
      let skip ← decodeVarint
      if skip = 0 then return pairs
      else if skip < 0 then invalidSection "skip" skip
      else
        let index := previous + skip
        match if index < 0 then none else pairs[index.toNat]? with
        | none => invalidSection "skip walks past the attribute list" index
        | some pair =>
          let declared ← decodeVarint
          if declared < 0 then invalidSection "datum_len" declared
          else
            match pair.datum with
            | .inline _ =>
              fail fun _ => .xattrDatumUnexpected pair.name.bytes
                "its value already travelled inside the file-list entry"
            | .deferred len digest =>
              if declared.toNat ≠ len then
                fail fun _ => .xattrDatumUnexpected pair.name.bytes
                  "the section declares a different length than the entry did"
              else
                let value ← take (.truncatedBuffer "xattr_datum_section_payload" len) len
                if md5 value ≠ digest then fail fun _ => .xattrDatumDigestMismatch pair.name.bytes
                else
                  let resolved : XattrPair := { pair with datum := .inline value }
                  resolveXattrRecords md5 turns index (pairs.set index.toNat resolved)

def resolveXattrDatumSection (md5 : List UInt8 → List UInt8) (pairs : List XattrPair) :
    Decoder (List XattrPair) :=
  resolveXattrRecords md5 (pairs.length + 1) (-1) pairs

end AeroFtp.RealWire
