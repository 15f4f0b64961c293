import YcsbIvs.Foundations.Words
import YcsbIvs.Foundations.Runs
import YcsbIvs.Core.ByteIterator
import YcsbIvs.Foundations.SortedMap
import YcsbIvs.Core.DB
import YcsbIvs.RocksDB.Codec
import YcsbIvs.RocksDB.Client
import YcsbIvs.RocksDB.Operations
import YcsbIvs.RocksDB.Binding
import YcsbIvs.RocksDB.Refinement
import YcsbIvs.Extend.Outcome
import YcsbIvs.Extend.Threads
import YcsbIvs.Extend.Increments
import YcsbIvs.Generator.Counters
import YcsbIvs.Generator.Exactness
import YcsbIvs.Workloads.KeyNumbers
import YcsbIvs.Workloads.TransactionInsert
import YcsbIvs.Workloads.Values
import YcsbIvs.Workloads.DoInsert
import YcsbIvs.Client.Load
import YcsbIvs.Workloads.DataIntegrity
import YcsbIvs.MongoDB.Batches
import YcsbIvs.Jdbc.Batches
import YcsbIvs.Foundations.Buffer
import YcsbIvs.VoltDB.Put
import YcsbIvs.VoltDB.Merge
import YcsbIvs.Foundations.Merge
import YcsbIvs.VoltDB.SortedMerge
import YcsbIvs.Foundations.Lines
import YcsbIvs.RocksDB.Sessions
import YcsbIvs.Foundations.Odometer
import YcsbIvs.Generator.PrintableStrings
import YcsbIvs.Generator.Timestamps
import YcsbIvs.TimeSeries.Workload
import YcsbIvs.TimeSeries.ThreadState
import YcsbIvs.RocksDB.Lifecycle
import YcsbIvs.RocksDB.Updates
import YcsbIvs.Core.Consumption
import YcsbIvs.Cassandra.Client
import YcsbIvs.Extend.Inherited
import YcsbIvs.Geode.Client
import YcsbIvs.Aerospike.Client
import YcsbIvs.GoogleDatastore.Client
import YcsbIvs.Couchbase.Client
import YcsbIvs.Extend.Frame
import YcsbIvs.FoundationDB.Batches
import YcsbIvs.FoundationDB.Scan
import YcsbIvs.CloudSpanner.Client
import YcsbIvs.Redis.Client
import YcsbIvs.Redis.Index
import YcsbIvs.Elasticsearch5.Client
import YcsbIvs.TimeSeries.Coverage
import YcsbIvs.TimeSeries.Verification
import YcsbIvs.Generator.Hotspot
import YcsbIvs.Workloads.NextKeynum
import YcsbIvs.AzureTable.Batches
import YcsbIvs.HBase1.Client
import YcsbIvs.MongoDB.Recovery
import YcsbIvs.Jdbc.Parameters
import YcsbIvs.Cassandra.Statements
import YcsbIvs.Core.Resends
import YcsbIvs.Foundations.Loops
import YcsbIvs.Couchbase2.Client
import YcsbIvs.Ignite.Client
import YcsbIvs.OrientDB.Client
import YcsbIvs.AzureCosmos.Client
import YcsbIvs.Foundations.Split
import YcsbIvs.Foundations.Gather
import YcsbIvs.TimeSeries.Queries
import YcsbIvs.TimeSeries.TimeseriesDB
import YcsbIvs.TimeSeries.Strings
import YcsbIvs.TimeSeries.Reachable
import YcsbIvs.TimeSeries.Scans
import YcsbIvs.TimeSeries.Reads
import YcsbIvs.DynamoDB.Client
import YcsbIvs.AsyncHBase.Client
import YcsbIvs.S3.Client
import YcsbIvs.Accumulo.Client
import YcsbIvs.Kudu.Client
import YcsbIvs.Foundations.Numerals
import YcsbIvs.Workloads.KeyNames
import YcsbIvs.Kudu.Partitions
import YcsbIvs.Crail.Client
import YcsbIvs.Couchbase.Decode
import YcsbIvs.Tarantool.Client
import YcsbIvs.Rados.Client
import YcsbIvs.Foundations.Throws
import YcsbIvs.Generator.Crashes
import YcsbIvs.TimeSeries.Operations
import YcsbIvs.TimeSeries.Crashes
import YcsbIvs.Foundations.Walks
import YcsbIvs.RocksDB.Framing
import YcsbIvs.Core.RandomBytes
import YcsbIvs.Generator.Histogram
import YcsbIvs.Experiment.KeySizes
import YcsbIvs.Foundations.Arithmetic
import YcsbIvs.Generator.Zipfian
import YcsbIvs.Foundations.Shares
import YcsbIvs.Generator.Discrete
import YcsbIvs.Generator.LastValue
import YcsbIvs.Foundations.CodePoints
import YcsbIvs.Generator.Incrementing
import YcsbIvs.Generator.CharacterSets
import YcsbIvs.Generator.RandomTimestamps
import YcsbIvs.TimeSeries.Initialisation
import YcsbIvs.TimeSeries.KeyRanges
import YcsbIvs.TimeSeries.SeriesKeys
import YcsbIvs.TimeSeries.Alignment
import YcsbIvs.Workloads.DeterministicValues
import YcsbIvs.Client.Lifecycle
import YcsbIvs.Client.Throttling
import YcsbIvs.Workloads.FieldLengths
import YcsbIvs.Client.StartDelay
import YcsbIvs.Client.CompleteLatch
import YcsbIvs.Core.StringRoundTrip
import YcsbIvs.Jdbc.Shards
import YcsbIvs.Couchbase2.Backoff
import YcsbIvs.TimeSeries.SeriesNumbers
import YcsbIvs.Riak.RiakUtils
import YcsbIvs.Measurements.Histogram
import YcsbIvs.Core.DBWrapper
import YcsbIvs.Client.Arguments
import YcsbIvs.MongoDB.OptionsSupport
import YcsbIvs.Workloads.Transactions
import YcsbIvs.Workloads.Sessions
import YcsbIvs.Foundations.Interned
import YcsbIvs.Foundations.Segments
import YcsbIvs.Foundations.Ranks
import YcsbIvs.Measurements.Registry
import YcsbIvs.Measurements.TimeSeries
import YcsbIvs.Measurements.Raw
import YcsbIvs.Client.Process
import YcsbIvs.Client.Termination
import YcsbIvs.Foundations.Powers
import YcsbIvs.Generator.ZipfianDraws
import YcsbIvs.Workloads.RecentKeys
import YcsbIvs.Client.CommandLine
import YcsbIvs.Client.Shell
import YcsbIvs.Client.ShellLines
import YcsbIvs.TimeSeries.Load
import YcsbIvs.Core.BasicDB
import YcsbIvs.Jdbc.Sharding
