import Sxaint.App.Cleartext
import Sxaint.App.History
import Sxaint.App.PinEntry
import Sxaint.App.Resume
import Sxaint.App.SendQueue
import Sxaint.Bytes.BitField
import Sxaint.Bytes.Block
import Sxaint.Bytes.Records
import Sxaint.Core.BitfieldCodec
import Sxaint.Core.Crypto
import Sxaint.Core.Detection
import Sxaint.Core.ExactlyOnce
import Sxaint.Core.FileMapper
import Sxaint.Core.Hasher
import Sxaint.Core.ManifestFile
import Sxaint.Core.Path
import Sxaint.Core.Permits
import Sxaint.Ikcp.Acknowledgement
import Sxaint.Ikcp.Messages
import Sxaint.Ikcp.Progress
import Sxaint.Machine.Run
import Sxaint.Math.FirstFree
import Sxaint.Net.Accounting
import Sxaint.Net.Acknowledge
import Sxaint.Net.Arrival
import Sxaint.Net.Backlog
import Sxaint.Net.ChunkIndex
import Sxaint.Net.Completion
import Sxaint.Net.Containment
import Sxaint.Net.Decoding
import Sxaint.Net.Departure
import Sxaint.Net.Discovery
import Sxaint.Net.Endpoint
import Sxaint.Net.FileName
import Sxaint.Net.Frames
import Sxaint.Net.Gating
import Sxaint.Net.Geometry
import Sxaint.Net.Halves
import Sxaint.Net.Initialisation
import Sxaint.Net.Integrity
import Sxaint.Net.Isolation
import Sxaint.Net.KnownAnswers
import Sxaint.Net.Latch
import Sxaint.Net.Links
import Sxaint.Net.PartialSend
import Sxaint.Net.PeerTable
import Sxaint.Net.PinGate
import Sxaint.Net.Progress
import Sxaint.Net.Reassembly
import Sxaint.Net.Receiver
import Sxaint.Net.Rename
import Sxaint.Net.Report
import Sxaint.Net.SenderRole
import Sxaint.Net.StunResponse
import Sxaint.Net.Teardown
import Sxaint.Net.Transfer
