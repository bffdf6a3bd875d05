import GumIndexer.Answers
import GumIndexer.Api
import GumIndexer.Attribution
import GumIndexer.Backfill
import GumIndexer.Base.Fill
import GumIndexer.Base.Pool
import GumIndexer.Base.Replay
import GumIndexer.Base.Run
import GumIndexer.Base.Sort
import GumIndexer.Base.Table
import GumIndexer.Base.Text
import GumIndexer.Base.Tiling
import GumIndexer.Base.Timeline
import GumIndexer.Buckets
import GumIndexer.Chain
import GumIndexer.Chunk
import GumIndexer.Chunking
import GumIndexer.Cluster
import GumIndexer.Coverage
import GumIndexer.Decimal
import GumIndexer.Delivery
import GumIndexer.Depth
import GumIndexer.Dispatcher
import GumIndexer.Drain
import GumIndexer.Expiry
import GumIndexer.Feeds
import GumIndexer.Health
import GumIndexer.Late
import GumIndexer.Leadership
import GumIndexer.Lookback
import GumIndexer.Matches
import GumIndexer.Orphans
import GumIndexer.Overflow
import GumIndexer.Push
import GumIndexer.Reconcile
import GumIndexer.Registration
import GumIndexer.Replay
import GumIndexer.Report
import GumIndexer.Routing
import GumIndexer.Rpc
import GumIndexer.Scan
import GumIndexer.Schedule
import GumIndexer.Settlement
import GumIndexer.Sign
import GumIndexer.Spans
import GumIndexer.Succession
import GumIndexer.Sweeper
import GumIndexer.Tally
import GumIndexer.Target
import GumIndexer.Base.Firsts
import GumIndexer.Receiver
