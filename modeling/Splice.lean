import Splice.Common.Base64
import Splice.Common.Bytes
import Splice.Lib.Budget
import Splice.Lib.Crc32
import Splice.Lib.CrcBits
import Splice.Lib.FileEdits
import Splice.Lib.FileEffects
import Splice.Lib.FileSystem
import Splice.Lib.Frames
import Splice.Lib.Recent
import Splice.Lib.Run
import Splice.Lib.Stdio
import Splice.Lib.Text
import Splice.Net.Endpoint
import Splice.Net.Poller
import Splice.Peer.Admission
import Splice.Peer.Agreement
import Splice.Peer.Answers
import Splice.Peer.CandTable
import Splice.Peer.Candidates
import Splice.Peer.Checksum
import Splice.Peer.Confinement
import Splice.Peer.Consistency
import Splice.Peer.Control
import Splice.Peer.Counters
import Splice.Peer.Daemon
import Splice.Peer.Discovery
import Splice.Peer.Durability
import Splice.Peer.Ends
import Splice.Peer.Everywhere
import Splice.Peer.ExecCredit
import Splice.Peer.ExecInput
import Splice.Peer.Faults
import Splice.Peer.GetFile
import Splice.Peer.Handshake
import Splice.Peer.Housing
import Splice.Peer.Instances
import Splice.Peer.Inventory
import Splice.Peer.Isolation
import Splice.Peer.Keeping
import Splice.Peer.LanPort
import Splice.Peer.LanSteps
import Splice.Peer.Layout
import Splice.Peer.LocalEnds
import Splice.Peer.Offers
import Splice.Peer.Orphans
import Splice.Peer.Ownership
import Splice.Peer.Pairing
import Splice.Peer.PathChoice
import Splice.Peer.PathManager
import Splice.Peer.PathProof
import Splice.Peer.PathSteps
import Splice.Peer.Quota
import Splice.Peer.Receiving
import Splice.Peer.Record
import Splice.Peer.RecordText
import Splice.Peer.Records
import Splice.Peer.Redial
import Splice.Peer.Registry
import Splice.Peer.Reload
import Splice.Peer.Renaming
import Splice.Peer.Reset
import Splice.Peer.RoundTrip
import Splice.Peer.Saving
import Splice.Peer.Segments
import Splice.Peer.SendQueue
import Splice.Peer.Session
import Splice.Peer.SessionTable
import Splice.Peer.ShareFile
import Splice.Peer.Shelf
import Splice.Peer.Sockets
import Splice.Peer.Store
import Splice.Peer.Tidy
import Splice.Peer.Transfer
import Splice.Peer.Work
import Splice.Proto.Codecs
import Splice.Proto.Frame
import Splice.Proto.Pairing
import Splice.Proto.Relay
import Splice.Server.CodeAlloc
import Splice.Server.CodeBook
import Splice.Server.Exclusivity
import Splice.Server.Handover
import Splice.Server.PairingServer
import Splice.Server.RateLimit
import Splice.Server.RelayTable
import Splice.Server.RelayServer
import Splice.Server.Bridge
import Splice.Peer.PathSettings
import Splice.Peer.Completion
import Splice.Peer.Processes
import Splice.Peer.LocalPairing
import Splice.Peer.Tether
import Splice.Peer.DirectPath
import Splice.Lib.FileTree
import Splice.Peer.Arrival
import Splice.Peer.Stream
import Splice.Peer.Delivery
import Splice.Peer.Resumption
