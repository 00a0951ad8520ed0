import Mpitofino.Library.Tcam
import Mpitofino.Library.FinTable
import Mpitofino.Library.OrderedMap
import Mpitofino.Library.Run
import Mpitofino.Library.Fallible
import Mpitofino.Library.Crc
import Mpitofino.Library.Codec
import Mpitofino.Library.Combiner
import Mpitofino.Library.OnesComplement
import Mpitofino.Library.CutStream
import Mpitofino.Library.Pieces
import Mpitofino.Library.Progress
import Mpitofino.Library.SharedLink
import Mpitofino.Library.Conservation
import Mpitofino.Dataplane.Egress
import Mpitofino.Dataplane.GeneratedIcrc
import Mpitofino.Dataplane.Wire
import Mpitofino.Dataplane.RoundTrip
import Mpitofino.Dataplane.Tables
import Mpitofino.Dataplane.Slot
import Mpitofino.Dataplane.IcrcReference
import Mpitofino.Dataplane.Icrc
import Mpitofino.Dataplane.Contributions
import Mpitofino.Dataplane.Headers
import Mpitofino.Dataplane.Pass
import Mpitofino.Dataplane.Ingress
import Mpitofino.Control.Selection
import Mpitofino.Control.Replies
import Mpitofino.Control.Allocation
import Mpitofino.Control.Lifetime
import Mpitofino.Control.FabricQps
import Mpitofino.Control.Registration
import Mpitofino.Control.EthSwitch
import Mpitofino.Control.SpecialEntries
import Mpitofino.Control.NodeDaemon
import Mpitofino.Control.Forwarding
import Mpitofino.Control.Isolation
import Mpitofino.Control.ForeignTraffic
import Mpitofino.Control.Callback
import Mpitofino.Control.CleanUnits
import Mpitofino.Control.Agent
import Mpitofino.Control.Programmed
import Mpitofino.Control.Installation
import Mpitofino.Control.AsicDriver
import Mpitofino.Control.Multicast
import Mpitofino.Control.WholeDevice
import Mpitofino.Control.ReplicationIds
import Mpitofino.Control.WorkerMasks
import Mpitofino.Control.HistoryIndependence
import Mpitofino.Control.StateRepository
import Mpitofino.Control.WorkerBitmap
import Mpitofino.Control.Reconciliation
import Mpitofino.Control.InternetChecksum
import Mpitofino.Control.MessageStream
import Mpitofino.Control.SimpleTypes
import Mpitofino.Control.PacketProcessor
import Mpitofino.Client.Endianness
import Mpitofino.Client.Reversal
import Mpitofino.Client.Allreduce
import Mpitofino.Client.RingLoop
import Mpitofino.Client.UserMemory
import Mpitofino.Client.CollMtof
import Mpitofino.Client.QueuePair
import Mpitofino.Client.Window
import Mpitofino.Client.Results
import Mpitofino.Client.Progress
import Mpitofino.Client.Failures
import Mpitofino.System.Switch
import Mpitofino.System.Stage
import Mpitofino.System.Aggregation
import Mpitofino.System.Refinement
import Mpitofino.System.Order
import Mpitofino.System.Network
import Mpitofino.System.Delivery
import Mpitofino.System.Sequence
import Mpitofino.System.Cluster
import Mpitofino.System.EndToEnd
import Mpitofino.System.Liveness
import Mpitofino.System.TrafficManager
import Mpitofino.System.PlainTraffic
import Mpitofino.System.CpuPort
import Mpitofino.System.WireNetwork
import Mpitofino.System.LoopedTraffic
import Mpitofino.System.WholeSwitch
import Mpitofino.System.Discovery
import Mpitofino.System.Acknowledgements
import Mpitofino.System.Link
