import FluxSync.Foundation.Runs
import FluxSync.Foundation.OrderedMap
import FluxSync.Foundation.Recency
import FluxSync.Foundation.WaitFor
import FluxSync.Foundation.SlidingWindow
import FluxSync.Foundation.Slices
import FluxSync.Foundation.Cbor
import FluxSync.Foundation.CborSize
import FluxSync.Foundation.NetText
import FluxSync.Foundation.Ipv6Text
import FluxSync.Foundation.Json
import FluxSync.Foundation.JsonData
import FluxSync.Foundation.Storage
import FluxSync.Types
import FluxSync.Proto.Types
import FluxSync.Proto.Serde
import FluxSync.Proto.Codec
import FluxSync.Core.Policy
import FluxSync.Core.Dedup
import FluxSync.Core.Ring
import FluxSync.Core.Fsm
import FluxSync.Core.Text
import FluxSync.Proto.File
import FluxSync.Proto.SafeName
import FluxSync.Proto.Hex
import FluxSync.Core.App
import FluxSync.Core.Handle
import FluxSync.Core.Transfer
import FluxSync.Core.Published
import FluxSync.Core.Pairing
import FluxSync.Core.Verdict
import FluxSync.Core.Parking
import FluxSync.Core.Mirror
import FluxSync.Core.History
import FluxSync.Core.Approval
import FluxSync.Core.Deferral
import FluxSync.Core.ReadBack
import FluxSync.Core.Bounds
import FluxSync.Core.Delivered
import FluxSync.Core.Gate
import FluxSync.Core.Identity
import FluxSync.Core.Swap
import FluxSync.Transport.Conn
import FluxSync.Transport.Slots
import FluxSync.Transport.Links
import FluxSync.Transport.Failover
import FluxSync.Transport.Sections
import FluxSync.Transport.Attribution
import FluxSync.Transport.Generations
import FluxSync.Transport.Greeting
import FluxSync.Transport.Replay
import FluxSync.Crypto.Session
import FluxSync.Crypto.Channel
import FluxSync.Daemon.Shared
import FluxSync.Daemon.InflightTable
import FluxSync.Daemon.Metrics
import FluxSync.Daemon.Tasks
import FluxSync.Daemon.Sections
import FluxSync.Daemon.Rules
import FluxSync.Daemon.Steps
import FluxSync.Daemon.Deadlock
import FluxSync.Daemon.Records
import FluxSync.Daemon.Coherence
import FluxSync.Daemon.Revocation
import FluxSync.Daemon.Restart
import FluxSync.Daemon.Orphans
import FluxSync.Daemon.Lifetime
import FluxSync.Daemon.Scoping
import FluxSync.Daemon.Egress
import FluxSync.Daemon.Gate
import FluxSync.Daemon.Rejection
import FluxSync.Daemon.Rollback
import FluxSync.Daemon.EventSeq
import FluxSync.Daemon.SeqBackup
import FluxSync.Daemon.Backoff
import FluxSync.Daemon.Limiter
import FluxSync.Daemon.Initiator
import FluxSync.Daemon.Dial
import FluxSync.Daemon.PairCommands
import FluxSync.Daemon.PairUri
import FluxSync.Daemon.Fsutil
import FluxSync.Daemon.Keystore
import FluxSync.Daemon.PeersFile
import FluxSync.Daemon.SeqDisk
import FluxSync.Daemon.LoadIdentity
import FluxSync.Daemon.ClipWriter
import FluxSync.Daemon.ClipWatch
import FluxSync.Daemon.Guards
import FluxSync.Daemon.Toggle
import FluxSync.Daemon.WireConfirm
import FluxSync.Vault.Store
import FluxSync.Vault.Wipe
import FluxSync.Vault.RoundTrip
import FluxSync.Vault.Retention
import FluxSync.Vault.HistoryStore
import FluxSync.Mesh.Frames
import FluxSync.Mesh.Reassembly
import FluxSync.Mesh.Isolation
import FluxSync.Mesh.Sizes
import FluxSync.Mesh.SecureTransfer
import FluxSync.Mesh.Repair
import FluxSync.Mesh.NakSize
import FluxSync.Mesh.Footprint
import FluxSync.Pipeline.Outbox
import FluxSync.Pipeline.Upkeep
import FluxSync.Pipeline.Node
import FluxSync.Pipeline.Canon
import FluxSync.Pipeline.Catchup
import FluxSync.Pipeline.Resync
import FluxSync.Pipeline.Pulls
import FluxSync.Pipeline.Delivery
import FluxSync.Pipeline.Acks
import FluxSync.Pipeline.Flood
import FluxSync.Pipeline.Coverage
import FluxSync.Pipeline.Clearing
import FluxSync.Pipeline.Purge
import FluxSync.Pipeline.WipeSync
import FluxSync.Pipeline.Admission
import FluxSync.Pipeline.Agreement
