import YeetzS3.Keyspace.Laws
import YeetzS3.Lifecycle
import YeetzS3.Contention
import YeetzS3.Keyspace.Codec
import YeetzS3.Keyspace.Isolation
import YeetzS3.Keyspace.Collection
import YeetzS3.Keyspace.Monotone
import YeetzS3.Lineage.Fold
import YeetzS3.Lineage.Destroy
import YeetzS3.Conc.Duty
import YeetzS3.Sha256
import YeetzS3.Bucket
import YeetzS3.Streams.Density
import YeetzS3.Keyspace.Delivered
import YeetzS3.Keyspace.Batch
import YeetzS3.Keyspace.Writer
import YeetzS3.Keyspace.Staged
import YeetzS3.Keyspace.Sealed
import YeetzS3.Keyspace.Committed
import YeetzS3.Lineage.Batches
import YeetzS3.Lineage.Past
import YeetzS3.Streams.Envelopes
import YeetzS3.Sdk.Retries
import YeetzS3.Streams.Recovery
import YeetzS3.Streams.Migrated
import YeetzS3.Streams.Rerun
import YeetzS3.Lineage.Terminal
import YeetzS3.Streams.Windows
import YeetzS3.Streams.Agreement
import YeetzS3.Streams.Genesis
import YeetzS3.Streams.Race
import YeetzS3.Streams.Cursors
import YeetzS3.Streams.Effects
