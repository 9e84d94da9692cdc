import RainCall.Dict.SafeIteration
import RainCall.SparseArray.Metadata
import RainCall.ArrayCommands.RingSpec
import RainCall.Rdb.ArraySpec
import RainCall.Intset.Refinement
import RainCall.Gcra.RateBound
import RainCall.Bridge.Emission
import RainCall.Bridge.Isolation
import RainCall.Kvstore.Iterator
import RainCall.Rax.Cursor
import RainCall.Rax.Recompress
import RainCall.Glob.PrefixMatch
import RainCall.Hash.Refinement
import RainCall.Hash.Encodings
import RainCall.Hash.Expiry
import RainCall.Hash.Replication
import RainCall.Bitops.Commands
import RainCall.Aof.RoundTrip
import RainCall.Keyspace.ExpiresIndex
import RainCall.Sentinel.Election
import RainCall.Tracking.Prefixes
