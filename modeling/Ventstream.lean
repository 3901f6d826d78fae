import Ventstream.Dispatcher.CommitOrder
import Ventstream.Postgres.BootstrapCrash
import Ventstream.Joins.SharedTables
import Ventstream.MongoDb.ResumeToken
import Ventstream.MySql.TailSafety
import Ventstream.MySql.Versions
import Ventstream.MySql.RawMode
import Ventstream.Neo4j.CursorSafety
import Ventstream.Neo4j.StalePrimaries
import Ventstream.OpenSearch.DelayedRetry
import Ventstream.Redis.SourceOrder
import Ventstream.Runtime.DrainResume
import Ventstream.Redis.OldIds
import Ventstream.Sinks.RejectedEvents
import Ventstream.SurrealDb.Sequential
import Ventstream.Realtime.Resume
import Ventstream.Joins.KeyRecovery
import Ventstream.Postgres.RowImages
import Ventstream.Sinks.FullImages
import Ventstream.SqlDenormalize.SelfJoins
import Ventstream.Joins.Shaping
import Ventstream.Redis.Keyspace
import Ventstream.SurrealDb.RecordIds
import Ventstream.Realtime.Admission
import Ventstream.Runtime.DeadLetters
import Ventstream.Core.Memory
import Ventstream.Joins.Persistence
import Ventstream.Postgres.Pgoutput
