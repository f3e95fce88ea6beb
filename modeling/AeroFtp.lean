import AeroFtp.Proofs.Aerorsync.Mux
import AeroFtp.Proofs.TransferDag.Adaptive
import AeroFtp.Proofs.TransferDag.Completeness
import AeroFtp.Proofs.TransferDag.Sync
import AeroFtp.Proofs.Sync.Symmetry
import AeroFtp.Proofs.CloudService.Edits
import AeroFtp.Proofs.TransferDag.Governor
import AeroFtp.Proofs.TransferDag.Checkpoint
import AeroFtp.Proofs.TransferDag.CheckpointCap
import AeroFtp.Proofs.Providers.InOrder
import AeroFtp.Proofs.SyncCore.Scan
import AeroFtp.Proofs.TransferDag.WorkSource
import AeroFtp.Proofs.Aerocrypt.Overlay
import AeroFtp.Proofs.CryptOverlay.RoundTrip
import AeroFtp.Proofs.PeerL0.Converge
import AeroFtp.Proofs.Providers.TempClaim
import AeroFtp.Proofs.Cryptomator.EncryptPaths
import AeroFtp.Proofs.Providers.HttpResume
import AeroFtp.Proofs.Aerorsync.Ndx
import AeroFtp.Proofs.Aerorsync.Preamble
import AeroFtp.Proofs.Aerorsync.SourceEntry
import AeroFtp.Proofs.Aerorsync.FileList
import AeroFtp.Proofs.Aerorsync.UploadSlabs
import AeroFtp.Proofs.Sync.History
import AeroFtp.Proofs.Sync.Rollback
import AeroFtp.Proofs.Sync.Decide
import AeroFtp.Proofs.TransferDag.Multipart
import AeroFtp.Proofs.Providers.Planners
import AeroFtp.Proofs.SyncFilter.Reachable
import AeroFtp.Proofs.RestrictedChars
import AeroFtp.Proofs.Aerocrypt.Keyslots
import AeroFtp.Proofs.McpClient.Framing
