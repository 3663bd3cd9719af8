import Cadent.Accumulator.Bypass
import Cadent.Accumulator.CarbonTwo
import Cadent.Accumulator.CounterExact
import Cadent.Accumulator.FlushTotals
import Cadent.Accumulator.Graphite
import Cadent.Accumulator.GraphiteExact
import Cadent.Accumulator.Identity
import Cadent.Accumulator.Injection
import Cadent.Accumulator.Json
import Cadent.Accumulator.JsonTags
import Cadent.Accumulator.KeepKeys
import Cadent.Accumulator.Keeping
import Cadent.Accumulator.Looking
import Cadent.Accumulator.Statsd
import Cadent.Accumulator.StatsdProtocol
import Cadent.Accumulator.StatsdWrite
import Cadent.Accumulator.TimerStats
import Cadent.Indexer.GlobSearch
import Cadent.Indexer.LevelDB
import Cadent.Indexer.LevelDBDelete
import Cadent.Indexer.LevelDBFind
import Cadent.Indexer.LevelDBNodes
import Cadent.Indexer.MetricCoherence
import Cadent.Indexer.OpenTSDBTags
import Cadent.Indexer.ParsedPaths
import Cadent.Indexer.ReadCaches
import Cadent.Indexer.Searches
import Cadent.Indexer.TagLocks
import Cadent.Indexer.TagRam
import Cadent.Indexer.WriteQueue
import Cadent.Injectors.Restart
import Cadent.Lib.Binary64
import Cadent.Lib.Bits
import Cadent.Lib.Consume
import Cadent.Lib.Counters
import Cadent.Lib.Maps
import Cadent.Lib.Replacing
import Cadent.Lib.Runes
import Cadent.Lib.Runs
import Cadent.Netpool.Buffered
import Cadent.Netpool.DestroyAll
import Cadent.Schemas.AggregatorRace
import Cadent.Schemas.DBSeries
import Cadent.Schemas.GridLoops
import Cadent.Schemas.ItemTags
import Cadent.Schemas.NewestLast
import Cadent.Schemas.Quantize
import Cadent.Schemas.RawDataPoint
import Cadent.Schemas.Resample
import Cadent.Schemas.StatMerge
import Cadent.Schemas.TagMerge
import Cadent.Schemas.TimeGrid
import Cadent.Schemas.Truncate
import Cadent.Schemas.UniqueIds
import Cadent.Series.Acceptance
import Cadent.Series.Copies
import Cadent.Series.Decoding
import Cadent.Series.Formats
import Cadent.Series.Gob
import Cadent.Series.GobRoundTrip
import Cadent.Series.Gorilla
import Cadent.Series.GorillaColumns
import Cadent.Series.GorillaOrder
import Cadent.Series.GorillaRecord
import Cadent.Series.GorillaRoundTrip
import Cadent.Series.GorillaSafety
import Cadent.Series.Registry
import Cadent.Series.Storage
import Cadent.Series.TimeSeries
import Cadent.Server.HashRing
import Cadent.Server.HealthChecks
import Cadent.Server.RouteCache
import Cadent.Server.RouteRaces
import Cadent.Splitter.Cleaning
import Cadent.Splitter.Lines
import Cadent.Splitter.MetaTags
import Cadent.Splitter.Recycled
import Cadent.Utils.Bitstream
import Cadent.Utils.LruTable
import Cadent.Utils.Trie
import Cadent.Utils.TrieSearch
import Cadent.Writers.CacheChunk
import Cadent.Writers.CacheItem
import Cadent.Writers.ChunkPartition
import Cadent.Writers.ChunkReads
import Cadent.Writers.LogSlice
import Cadent.Writers.ReadCacheGet
import Cadent.Writers.ReadCacheItem
import Cadent.Writers.SingleConservation
import Cadent.Writers.SplitNames
import Cadent.Writers.StatsStream
