import CustomData.Lib.Loop
import CustomData.Lib.Machine
import CustomData.Lib.Collect
import CustomData.Lib.Gather
import CustomData.Lib.Tagged
import CustomData.Common
import CustomData.Rx
import CustomData.Scan
import CustomData.Package
import CustomData.Transfers
import CustomData.Reassembly
import CustomData.Arrivals
import CustomData.StreamRx
import CustomData.EventContract
import CustomData.Leftover
import CustomData.SliceInvariant
import CustomData.SlicePull
import CustomData.Embedded
import CustomData.DecodeResult
import CustomData.Coordinator
import CustomData.Decoder
import CustomData.Senders
import CustomData.Interleaving
import CustomData.Agreement
import CustomData.Isolation
import CustomData.Spans
import CustomData.Consumer
import CustomData.Assertion
import CustomData.SlotRx
import CustomData.Duplication
import CustomData.Adjacent
import CustomData.Ledger
import CustomData.Wrap
import CustomData.Tx
import CustomData.TxWriter
import CustomData.ZeroCopyTx
import CustomData.StreamTx
import CustomData.TxSinks
import CustomData.Encoder
import CustomData.ToolRx
import CustomData.ToolMain
import CustomData.ToolArea
import CustomData.ToolTx
import CustomData.RoundTrip
import CustomData.PushContract
import CustomData.Parcels
import CustomData.Flow
import CustomData.Provenance
import CustomData.Splice
import CustomData.EmbeddedLink
import CustomData.ToolStdin
import CustomData.ToolLink
import CustomData.Network
import CustomData.Stall
import CustomData.Silence
import CustomData.Writers
import CustomData.SessionFile
import CustomData.ToolExit
import CustomData.ToolStdout
import CustomData.Pushes
