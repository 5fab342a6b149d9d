import H2Database.Mvstore.Convergence
import H2Database.Replication.RemoteApply
import H2Database.Mvstore.Tx.LostUpdate
import H2Database.Mvstore.Tx.Replay
import H2Database.Mvstore.Tx.Ghost
import H2Database.Storage.Redo
import H2Database.Storage.Fencing
import H2Database.Storage.CommitLsn
import H2Database.Mvstore.Tx.Deadlock
import H2Database.Mvstore.ChainWalk
import H2Database.Mvstore.Tx.OnlineVacuum
import H2Database.Mvstore.Tx.FailedCommit
import H2Database.Sql.WriteSkew
import H2Database.Graph.Ids
import H2Database.Sql.Where
import H2Database.Jms.Sessions
import H2Database.Mvstore.Tx.RawRead
import H2Database.Mvstore.BufferPool.Checksums
import H2Database.Mvstore.Tx.Undo
import H2Database.Mvstore.Rewrite
import H2Database.Mvstore.Compaction
import H2Database.Mvstore.CheckpointRuns
import H2Database.Graph.PathSearch
import H2Database.Sql.Atomicity
import H2Database.Mvstore.BackupFormat
import H2Database.Sql.KeySeparation
import H2Database.Sql.EqualityOrder
import H2Database.Sql.ColumnReads
import H2Database.Sql.IntervalText
import H2Database.Bolt.RoundTrip
import H2Database.Sql.Assignments
import H2Database.Storage.Cluster
import H2Database.Sql.DropTable
import H2Database.Sql.Rename
import H2Database.Sql.IndexCreation
import H2Database.Sql.ExternalSort
import H2Database.Sql.CascadeEnds
import H2Database.Sql.CopyBack
import H2Database.Sql.Fetch
import H2Database.Sql.Sequences
import H2Database.Sql.SetOperations
import H2Database.Sql.RecursiveCtes
import H2Database.Sql.WindowValues
import H2Database.Sql.Joins
import H2Database.Sql.ModeAnswers
import H2Database.Sql.IntegerArithmetic
import H2Database.Sql.QueueRetention
import H2Database.Storage.Gossip
