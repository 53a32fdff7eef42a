import PgAqp.Hash.HtabReclaim
import PgAqp.Hash.HtabRemoval
import PgAqp.Hash.HtabSentinel
import PgAqp.VersionStore.Pass
import PgAqp.VersionStore.Reader
import PgAqp.Mmgr.EpochClients
import PgAqp.Mmgr.SlabAddress
import PgAqp.Mmgr.SlabHandout
import PgAqp.Abtree.AggSpace
import PgAqp.Abtree.KeySize
import PgAqp.Abtree.SwapPosting
import PgAqp.Wal.AggRecovery
import PgAqp.Wal.DedupReplay
import PgAqp.Wal.NewRoot
import PgAqp.Wal.UpdateId
import PgAqp.Sampling.AliasDraw
import PgAqp.Sampling.ItemArrays
import PgAqp.Sampling.TotalWeight
import PgAqp.Progressive.Arrays
import PgAqp.Progressive.Clusters
import PgAqp.Progressive.HalfCi
import PgAqp.Progressive.NewPartitions
import PgAqp.Progressive.Rounds
import PgAqp.ScanKeys.Partition
import PgAqp.BulkLoad.Tree
