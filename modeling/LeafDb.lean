import LeafDb.Sql.Pushdown
import LeafDb.Sql.JoinKey
import LeafDb.Sql.Interp
import LeafDb.Sql.RowCodec
import LeafDb.Sql.Engine
import LeafDb.Sql.IndexInv
import LeafDb.Sql.IndexRun
import LeafDb.Base.Result
import LeafDb.TreeCheckSound
import LeafDb.PagerDurable
import LeafDb.SingleSession
import LeafDb.SnapshotRead
import LeafDb.Interleavings
import LeafDb.WalPrefix
import LeafDb.TableDurable
import LeafDb.CloseAll
import LeafDb.EngineLocks
import LeafDb.PageOwners
import LeafDb.WalNative
import LeafDb.Sql.ParsePrint
import LeafDb.Sql.FastPath
import LeafDb.Sql.Relation
import LeafDb.CatalogPage
import LeafDb.NodeCodec
import LeafDb.TreeOccupancy
import LeafDb.TreeBuild
import LeafDb.TreeCheckRun
import LeafDb.Sql.StatementAtomic
import LeafDb.Sql.GroupBy
import LeafDb.Sql.AggregateNodes
import LeafDb.Sql.LikeMatch
import LeafDb.PagerCache
import LeafDb.RecoverTwice
import LeafDb.Sql.ParseScript
import LeafDb.Sql.Division
import LeafDb.Sql.AccumulateOrder
import LeafDb.Sql.StagedRun
import LeafDb.Sql.Quoting
