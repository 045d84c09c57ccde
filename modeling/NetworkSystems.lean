import NetworkSystems.Lib.Machine
import NetworkSystems.Lib.ShortestPath
import NetworkSystems.Gbn.Close
import NetworkSystems.Gbn.Ring
import NetworkSystems.Gbn.EndOfStream
import NetworkSystems.Gbn.Wakeup
import NetworkSystems.Gbn.Retransmission
import NetworkSystems.Gbn.Receiving
import NetworkSystems.Gbn.SequenceNumbers
import NetworkSystems.Gbn.Writing
import NetworkSystems.Gbn.Coverage
import NetworkSystems.Gbn.Bookkeeping
import NetworkSystems.FileShare.Registration
import NetworkSystems.FileShare.Refresh
import NetworkSystems.FileShare.Transfer
import NetworkSystems.FileShare.Departure
import NetworkSystems.FileShare.TrieIndex
import NetworkSystems.FileShare.Enumeration
import NetworkSystems.FileShare.Recovery
import NetworkSystems.FileShare.Download
import NetworkSystems.FileShare.PortNumber
import NetworkSystems.FileShare.RecordBuffer
import NetworkSystems.FileShare.Snapshot
import NetworkSystems.FileShare.Provenance
import NetworkSystems.FileShare.Interrupt
import NetworkSystems.LinkState.Freshness
import NetworkSystems.LinkState.ArrivalOrder
import NetworkSystems.LinkState.ShortestPaths
import NetworkSystems.LinkState.Completeness
import NetworkSystems.LinkState.Bounds
import NetworkSystems.LinkState.Representation
import NetworkSystems.LinkState.StorageOrder
import NetworkSystems.Gbn.Progress
import NetworkSystems.LinkState.Deployment
