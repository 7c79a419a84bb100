import Themis.Proofs.Balloc.NextFit
import Themis.Proofs.Balloc.NoSpace
import Themis.Proofs.Balloc.Overlap
import Themis.Proofs.Balloc.Format
import Themis.Proofs.Balloc.Allocator
import Themis.Proofs.Balloc.BlockMap
import Themis.Proofs.FastMount
import Themis.Proofs.InodeRecovery
import Themis.Proofs.Log.Exact
import Themis.Proofs.File.Lost
import Themis.Proofs.File.FailedWrite
import Themis.Proofs.File.OwnerRun
import Themis.Proofs.File.Traverse
import Themis.Proofs.Dir.Map
import Themis.Proofs.Dir.Links
import Themis.Proofs.Unmount
import Themis.Proofs.NewInode
import Themis.Proofs.PageLocks
import Themis.Proofs.Hash
import Themis.Proofs.OccupySpace
import Themis.Proofs.Knapsack
import Themis.Proofs.Malice
import Themis.Proofs.JournalMigration
import Themis.Proofs.WriteCount
import Themis.Proofs.Create
import Themis.Proofs.Namei
import Themis.Proofs.Log.Release
import Themis.Proofs.TableLocks
import Themis.Proofs.Dir.Readdir
import Themis.Proofs.File.Deletion
import Themis.Proofs.File.HoleFill
import Themis.Proofs.Dir.Heads
import Themis.Proofs.WearLeveling
import Themis.Proofs.Super
import Themis.Proofs.Flags
