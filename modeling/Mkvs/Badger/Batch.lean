import Mkvs.Badger.Read

/-!
# Batches

`NewBatch` and the batch operations. A batch collects node writes, the root's `rootNode`
marker and its write log in a write batch at the version's timestamp, and in chunk mode
the restore log entries in a second write batch at the metadata timestamp. `Commit`
registers the root in the roots metadata through a transaction it commits last, after
flushing both write batches.
-/

namespace Mkvs.Badger

/-- `NewBatch`, storing the handle as batch `id`. -/
def newBatch (id : Nat) (oldRoot : Root) (version : Nat) (chunk : Bool) : DbM Unit := do
  let d ← getDb
  if d.readOnly then throw .readOnly
  if d.multipartVersion ≠ multipartVersionNone ∧ d.multipartVersion ≠ version then
    throw .invalidMultipartVersion
  if chunk ≠ decide (d.multipartVersion ≠ multipartVersionNone) then throw .multipartInProgress
  let multipart := d.multipartVersion ≠ multipartVersionNone
  setBatch id
    { bat := WriteBatch.new (versionToTs version)
      multipartNodes := if multipart then some (WriteBatch.new tsMetadata) else none
      readTxn := if multipart then some (Txn.new (versionToTs version)) else none
      oldRoot, chunk
      writeLog := none, annotations := none, updatedNodes := [] }

namespace Batch

/-- `PutWriteLog`. -/
def putWriteLog (id : Nat) (writeLog : Option WriteLog) (annotations : Option Annotations) :
    DbM Unit := do
  let ba ← getBatch id
  if ba.chunk then throw .chunkWriteLog
  if (← getDb).discardWriteLogs then return
  setBatch id { ba with writeLog, annotations }

/-- `RemoveNodes`, for the pointers to `hs`. -/
def removeNodes (id : Nat) (hs : List Hash) : DbM Unit := do
  let ba ← getBatch id
  if ba.chunk then throw .chunkRemoveNodes
  setBatch id { ba with updatedNodes := ba.updatedNodes ++ hs.map (⟨true, ·⟩) }

/-- `PutNode`. In chunk mode a node the read transaction does not find is logged; a
failing read is ignored, as in the code. -/
def putNode (id : Nat) (n : Node) : DbM Unit := do
  let ba ← getBatch id
  let h := n.getHash
  setBatch id { ba with updatedNodes := ba.updatedNodes ++ [⟨false, h⟩] }
  if let (some mn, some rt) := (ba.multipartNodes, ba.readTxn) then
    let found ← tryCatch (Option.isSome <$> txnGet rt (.node h)) fun _ => pure true
    if !found then
      let mn ← batchSet mn (.multipartRestoreNodeLog ⟨.invalid, h⟩) .empty
      setBatch id { (← getBatch id) with multipartNodes := some mn }
  let ba ← getBatch id
  let bat ← batchSet ba.bat (.node h) (.node n)
  setBatch id { ba with bat }

/-- `Reset`. -/
def reset (id : Nat) : DbM Unit := do
  let ba ← getBatch id
  setBatch id
    { ba with
      bat := ba.bat.cancel
      multipartNodes := ba.multipartNodes.map WriteBatch.cancel
      readTxn := if ba.multipartNodes.isSome then ba.readTxn.map ({ · with discarded := true })
        else ba.readTxn
      writeLog := none, annotations := none, updatedNodes := [] }

/-- The checks `Commit` makes before it writes anything. -/
def commitChecks (ba : Batch) (root : Root) : DbM Unit := do
  let d ← getDb
  if d.multipartVersion ≠ multipartVersionNone ∧ d.multipartVersion ≠ root.version then
    throw .invalidMultipartVersion
  sanityCheckNamespace root.ns
  if !root.follows ba.oldRoot then throw .rootMustFollowOld
  if let some l := d.meta.lastFinalizedVersion then
    if root.version ≤ l then throw .alreadyFinalized

/-- `Commit` writes the root's marker, and in chunk mode logs the root. -/
def registerRoot (id : Nat) (rootHash : TypedHash) : DbM Unit := do
  let ba ← getBatch id
  let bat ← batchSet ba.bat (.rootNode rootHash) .empty
  setBatch id { ba with bat }
  if let some mn := ba.multipartNodes then
    let mn ← batchSet mn (.multipartRestoreNodeLog rootHash) .empty
    setBatch id { (← getBatch id) with multipartNodes := some mn }

/-- `Commit` appends the new root to its old root's derived roots. -/
def linkOldRoot (oldRoot : Root) (rootHash : TypedHash) (version : Nat) (tx : Txn) :
    DbM Txn := do
  if oldRoot.version < (← getDb).meta.earliestVersion ∧ oldRoot.version ≠ version then
    throw .previousVersionMismatch
  let orm ← loadRootsMetadata tx oldRoot.version
  let oldRootHash := TypedHash.fromRoot oldRoot
  match orm.roots.lookup oldRootHash with
  | none => throw .rootNotFound
  | some derived =>
    RootsMetadata.save { orm with roots := setRoot orm.roots oldRootHash (derived ++ [rootHash]) } tx

/-- The normal-mode part of `Commit`: link to the old root, store the updated nodes, and
the write log if one was put. -/
def commitLinks (id : Nat) (root : Root) (rootHash : TypedHash) (tx : Txn) : DbM Txn := do
  let ba ← getBatch id
  let oldRootHash := TypedHash.fromRoot ba.oldRoot
  let tx ← if !ba.oldRoot.hash.isEmpty then linkOldRoot ba.oldRoot rootHash root.version tx
    else pure tx
  let tx ← txnSet tx (.rootUpdatedNodes root.version rootHash) (.updatedNodes ba.updatedNodes)
  if let (some wl, some ann) := (ba.writeLog, ba.annotations) then
    let bat ← batchSet ba.bat (.writeLog root.version rootHash oldRootHash)
      (.writeLog (makeHashedDBWriteLog wl ann))
    setBatch id { ba with bat }
  return tx

/-- The end of `Commit`: flush the restore log, then the nodes, then commit the metadata. -/
def commitFlush (id : Nat) (tx : Txn) : DbM Unit := do
  let ba ← getBatch id
  if let some mn := ba.multipartNodes then
    let mn ← batchFlush mn
    setBatch id { ba with multipartNodes := some mn }
  let ba ← getBatch id
  let bat ← batchFlush ba.bat
  setBatch id { ba with bat }
  txnCommitAt tx tsMetadata
  setBatch id { (← getBatch id) with writeLog := none, annotations := none, updatedNodes := [] }

/-- `Commit`. A root that is already in the roots metadata ends a normal batch with a
`Reset` and nothing else; a chunk batch goes on. -/
def commit (id : Nat) (root : Root) : DbM Unit := do
  commitChecks (← getBatch id) root
  let tx := Txn.new (versionToTs root.version)
  let rm ← loadRootsMetadata tx root.version
  let rootHash := TypedHash.fromRoot root
  registerRoot id rootHash
  let ba ← getBatch id
  let present := (rm.roots.lookup rootHash).isSome
  if present && !ba.chunk then
    reset id
  else
    let tx ← if present then pure tx
      else RootsMetadata.save { rm with roots := setRoot rm.roots rootHash [] } tx
    let tx ← if ba.chunk then
        txnSet tx (.rootUpdatedNodes root.version rootHash) (.updatedNodes [])
      else commitLinks id root rootHash tx
    commitFlush id tx

end Batch

end Mkvs.Badger
