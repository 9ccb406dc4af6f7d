import ShardedEcho.Worker.Loop
import ShardedEcho.Worker.Ownership
import ShardedEcho.Worker.Counters
import ShardedEcho.Binary64
import ShardedEcho.TDigest.Basic
import ShardedEcho.TDigest.BuildFrom
import ShardedEcho.TDigest.Invariant
import ShardedEcho.TDigest.Percentile
import ShardedEcho.TDigest.Accuracy
import ShardedEcho.TDigest.Double
import ShardedEcho.TDigest.Compress
import ShardedEcho.Server.Options
import ShardedEcho.Server.Main
