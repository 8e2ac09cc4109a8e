import DistExp.Library.NibbleWord
import DistExp.Library.MachineInt
import DistExp.Library.AgedCounter
import DistExp.Library.HalvingTree
import DistExp.Library.TreeDescent
import DistExp.Library.Runs
import DistExp.Library.CallTree
import DistExp.Library.FieldMap
import DistExp.Detail
import DistExp.PackedTable
import DistExp.MixTable
import DistExp.FlatTable
import DistExp.TableRefinement
import DistExp.RangeSketch
import DistExp.RangeCounters
import DistExp.RangeGeometry
import DistExp.PrivateRow
import DistExp.IntervalSketch
import DistExp.IntervalHistory
import DistExp.IntervalEstimates
import DistExp.IntervalExact
import DistExp.GxjSketch
import DistExp.GxjHistory
import DistExp.GxjEstimates
import DistExp.HierarchicalSketch
import DistExp.HierarchicalEstimates
import DistExp.HierarchicalAging
import DistExp.ResetThreads
import DistExp.RangeCalls
import DistExp.RangeTermination
import DistExp.RangeRuns
import DistExp.RangeLevels
import DistExp.RangeTables
import DistExp.IntervalBoundary
import DistExp.IntervalHalving
import DistExp.IntervalSplitting
import DistExp.NextRange
import DistExp.TableSizing
import DistExp.FlowKeys
import DistExp.SampledRate
import DistExp.GxjMonotone
import DistExp.GranuleLoop
import DistExp.CountMinSketch
import DistExp.CountMinEstimates
import DistExp.ExactCount
import DistExp.Averages
import DistExp.ChangeCapacity
import DistExp.RangeFrequencySketch
import DistExp.RangeFrequencyHistory
import DistExp.RangeFrequencyAging
import DistExp.RangeFrequencyPeriods
import DistExp.GranuleSets
import DistExp.Experiment
import DistExp.ExperimentInvariant
import DistExp.ExperimentWorker
import DistExp.ExperimentManager
import DistExp.ExperimentRuns
import DistExp.ExperimentExits
import DistExp.ExperimentServers
import DistExp.ExperimentEnd
import DistExp.ExperimentHealth
import DistExp.FlatRuns
import DistExp.AverageSums
import DistExp.Resize
import DistExp.Library.Bytes
import DistExp.Library.Stream
import DistExp.Library.BlockHash
import DistExp.Library.Outbox
import DistExp.Msgpack.Format
import DistExp.Msgpack.Pack
import DistExp.Msgpack.Parse
import DistExp.Msgpack.Accepts
import DistExp.Msgpack.Sound
import DistExp.Msgpack.Adaptor
import DistExp.Rpc.Codec
import DistExp.Rpc.Md5
import DistExp.Rpc.Md5Digest
import DistExp.Rpc.Wire
import DistExp.Rpc.Streams
import DistExp.Rpc.Routing
import DistExp.Rpc.ClientCalls
import DistExp.Rpc.Sessions
import DistExp.Rpc.SessionSteps
import DistExp.Rpc.Systems
import DistExp.Rpc.Networks
import DistExp.Rpc.NetworkProgress
import DistExp.Rpc.Realisation
import DistExp.Rpc.RemoteCalls
import DistExp.Rpc.PubSub
import DistExp.Rpc.Subscriptions
import DistExp.Rpc.ClientLoop
import DistExp.Rpc.ClientFailures
import DistExp.Rpc.ClientLedger
import DistExp.Rpc.ClientAborts
import DistExp.Rpc.ClientSends
import DistExp.Rpc.ClientReads
import DistExp.Rpc.Connections
import DistExp.Rpc.ConnectionMap
