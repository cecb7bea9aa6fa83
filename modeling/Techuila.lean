import Techuila.Dist.ElectionSafety
import Techuila.Oglang.LabelText
import Techuila.Oglang.Mangling
import Techuila.Oglang.Aggregates
import Techuila.Storage.Durability
import Techuila.L1.CrashConsistency
import Techuila.L1.Replay
import Techuila.Os.HeapRuns
import Techuila.Os.Elf
import Techuila.Lib.Bitmap
import Techuila.Os.Memory
import Techuila.Os.Paging
import Techuila.Os.AddressSpace
import Techuila.Os.Scheduler
import Techuila.Os.Loading
import Techuila.Os.Ownership
import Techuila.Os.Creation
import Techuila.Os.Machine
import Techuila.Lib.RoundRobin
import Techuila.Os.Lifecycle
import Techuila.Os.TaskRuns
import Techuila.Os.Accounting
import Techuila.Os.ElfTask
import Techuila.Oglang.Declarations
import Techuila.Oglang.Resolution
import Techuila.L1.Conservation
import Techuila.Dist.Partition
import Techuila.Oggit.ObjectStore
import Techuila.Oggit.Trees
import Techuila.Lib.TableDiff
import Techuila.Oggit.Diff
import Techuila.Oggit.TreeBuilder
import Techuila.Lib.BreadthFirst
import Techuila.Lib.ThreeWay
import Techuila.Oggit.Merge
import Techuila.Oggit.MergeExact
import Techuila.Oggit.MergeSymmetry
import Techuila.Lib.PosixPath
import Techuila.Oggit.Checkout
import Techuila.Lib.FileSystem
import Techuila.Oggit.Repository
import Techuila.Forge.Server
import Techuila.Forge.Layout
import Techuila.Forge.Branches
import Techuila.Forge.Confinement
import Techuila.Storage.Recovery
import Techuila.Oggit.Codecs
import Techuila.Oggit.MergeBase
import Techuila.Oggit.TreeContents
import Techuila.Oggit.Index
import Techuila.Oggit.Refs
import Techuila.Ecs.World
import Techuila.Lib.Purge
import Techuila.Ecs.Handles
import Techuila.Lib.Flooding
import Techuila.Net.Protocols
import Techuila.Netlab.Topology
import Techuila.Netlab.Ports
import Techuila.Netlab.Delivery
import Techuila.Netlab.Ip
import Techuila.Netlab.Ping
import Techuila.Os.Preemption
import Techuila.Os.SafeCreation
import Techuila.Crypto.Streaming
import Techuila.Crypto.Buffer
import Techuila.Crypto.Hmac
import Techuila.Dist.Framing
import Techuila.L1.Canonical
import Techuila.Netlab.Segment
import Techuila.Netlab.Mission
import Techuila.Lib.OnesComplement
import Techuila.Lib.Stores
import Techuila.Net.Checksum
import Techuila.Net.Codecs
import Techuila.Net.Corruption
import Techuila.Net.Serializers
import Techuila.Os.HeapRequests
import Techuila.Autodiff.Backward
import Techuila.Ecs.Lifecycle
import Techuila.Graphics.Picture
import Techuila.Lib.PairScan
import Techuila.Lib.Qubits
import Techuila.Quantum.Gates
import Techuila.Lib.Parse
import Techuila.Oglang.Coloring
import Techuila.Oglang.FrontEnd
import Techuila.Oglang.ModuleCycles
import Techuila.Oglang.ModuleOrder
import Techuila.Oglang.Returns
import Techuila.Oglang.Preservation
