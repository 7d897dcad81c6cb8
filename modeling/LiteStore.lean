import LiteStore.TableRuns
import LiteStore.RowIds
import LiteStore.RangeReads
import LiteStore.PrivateDbs
import LiteStore.WalAnswers
import LiteStore.WalCrash
import LiteStore.ScanRows
import LiteStore.IndexOrder
import LiteStore.Sequences
import LiteStore.T4Fetch
import LiteStore.DmlOperators
import LiteStore.T4Patterns
import LiteStore.FixedArith
import LiteStore.RolePrivileges
import LiteStore.PreparedParameters
import LiteStore.GroupCommit
import LiteStore.AlterRestore
import LiteStore.SessionUser
import LiteStore.Activation
import LiteStore.CommitPipeline
import LiteStore.ExQueue
import LiteStore.Cancellation
