import Mkvs.Node
import Mkvs.Badger.Store
import Mkvs.Badger.Db
import Mkvs.Badger.Read
import Mkvs.Badger.WriteLog
import Mkvs.Badger.Multipart
import Mkvs.Badger.Batch
import Mkvs.Badger.Finalize
import Mkvs.Badger.Prune
import Mkvs.System
import Mkvs.Proofs.Frame
import Mkvs.Proofs.Versions
import Mkvs.Proofs.Failures
import Mkvs.Proofs.Restore
import Mkvs.Proofs.Finalization
import Mkvs.Proofs.Closure
import Mkvs.Proofs.Commit
import Mkvs.Proofs.BatchShape
import Mkvs.Proofs.Lockstep
import Mkvs.Proofs.Retry
import Mkvs.Proofs.WriteLogSearch
import Mkvs.Proofs.Handles
import Mkvs.Proofs.Typing
import Mkvs.Proofs.TypedRuns
import Mkvs.Proofs.Reads
import Mkvs.Proofs.CommitRoots
import Mkvs.Proofs.CommitNodes
import Mkvs.Proofs.FinalizeSeeds
import Mkvs.Proofs.PruneVisit
import Mkvs.Proofs.PruneRoots
