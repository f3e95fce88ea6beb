/-
Where the parts of a multipart upload start and end.

`TransferGraphProfile::resolve` (`transfer_dag/builder.rs`) chooses the number of parts and
their size, `MultipartLayout` (`transfer_multipart.rs`) keeps both, and
`multipart_part_byte_len` (`transfer_dag/resources.rs`) recomputes the length of each part.
-/
import AeroFtp.TransferDag.Sync
import Mathlib.Algebra.Order.Floor.Div

namespace AeroFtp.Dag

def defaultMultipartChunkSize : Nat := 8 * 1024 * 1024

def maxMultipartParts : Nat := 10000

inductive TransferDirection where
  | download
  | upload
  deriving DecidableEq, Repr

/-- The fields of `TransferCapabilities` that shaping a transfer reads. -/
structure ShapingCapabilities extends TransferCapabilities where
  multipartUpload : Capability := .unsupported
  rateLimitedApi : Capability := .unsupported
  maxChunkSlots : Option Nat := none
  preferredChunkSize : Option Nat := none
  multipartThreshold : Nat := 2 ^ 64 - 1
  multipartStreamingBody : Bool := false
  deriving DecidableEq

structure TransferGraphProfile where
  uploadParts : Nat
  resume : Bool
  apiSlots : Nat
  maxChunkSlots : Nat
  preferredChunkSize : Nat
  streamsPartBody : Bool
  deriving DecidableEq, Repr

namespace ShapingCapabilities

variable (caps : ShapingCapabilities)

def chunkHint : Nat :=
  (caps.preferredChunkSize.filter (0 < ·)).getD defaultMultipartChunkSize

def multipartEligible (direction : TransferDirection) (fileSize : Nat) : Bool :=
  let multipartThreshold :=
    if caps.multipartThreshold = 0 then caps.chunkHint else caps.multipartThreshold
  decide (direction = .upload) && caps.multipartUpload.isAvailable &&
    decide (multipartThreshold ≤ fileSize)

end ShapingCapabilities

def TransferGraphProfile.resolve (direction : TransferDirection) (caps : ShapingCapabilities)
    (fileSize : Nat) : TransferGraphProfile :=
  let multipartEligible := caps.multipartEligible direction fileSize
  let uploadParts :=
    if multipartEligible then min (max (fileSize ⌈/⌉ caps.chunkHint) 1) maxMultipartParts else 1
  { uploadParts
    resume :=
      match direction with
      | .download => caps.resumeDownload.isAvailable
      | .upload => caps.resumeUpload.isAvailable
    apiSlots := if caps.rateLimitedApi.isAvailable then 1 else 0
    maxChunkSlots := if multipartEligible then max (caps.maxChunkSlots.getD 1) 1 else 1
    -- The number of parts is cut to the maximum first, and the parts grow to make up for it.
    preferredChunkSize :=
      if multipartEligible then max caps.chunkHint (fileSize ⌈/⌉ uploadParts) else 0
    streamsPartBody := multipartEligible && caps.multipartStreamingBody }

def multipartPartByteLen (fileSize partIndex partCount preferredChunkSize : Nat) : Nat :=
  if partCount = 0 ∨ preferredChunkSize = 0 ∨ partCount ≤ partIndex then 0
  else
    -- `saturating_mul`
    let offset := min (partIndex * preferredChunkSize) (2 ^ 64 - 1)
    if fileSize ≤ offset then 0 else min preferredChunkSize (fileSize - offset)

structure MultipartLayout where
  totalSize : Nat
  totalParts : Nat
  preferredPartSize : Nat
  deriving DecidableEq, Repr

namespace MultipartLayout

def fromProfile (totalSize totalParts preferredPartSize : Nat) : MultipartLayout where
  totalSize
  totalParts := max totalParts 1
  preferredPartSize :=
    if 0 < preferredPartSize then preferredPartSize
    else if 0 < totalParts then max (totalSize ⌈/⌉ totalParts) 1
    else max totalSize 1

/-- The offset and length of the part of this number, counted from one. -/
def partRange (layout : MultipartLayout) (partNumber : Nat) : Except TransferFailure (Nat × Nat) :=
  if partNumber = 0 ∨ layout.totalParts < partNumber then
    .error
      { kind := .unknown
        message := s!"multipart part {partNumber} out of range 1..={layout.totalParts}"
        retryable := false }
  else
    let len := multipartPartByteLen layout.totalSize (partNumber - 1) layout.totalParts
      layout.preferredPartSize
    if len = 0 then
      .error
        { kind := .unknown
          message := s!"multipart part {partNumber} has zero length"
          retryable := false }
    else .ok ((partNumber - 1) * layout.preferredPartSize, len)

end MultipartLayout

/-- The layout of an upload that the profile of its provider shapes. -/
def shapedLayout (caps : ShapingCapabilities) (fileSize : Nat) : MultipartLayout :=
  let profile := TransferGraphProfile.resolve .upload caps fileSize
  .fromProfile fileSize profile.uploadParts profile.preferredChunkSize

end AeroFtp.Dag
