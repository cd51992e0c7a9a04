import Mkvs.Badger.Read

/-!
# Multipart restores and opening the database

A chunked restore into version `V` records in the multipart restore log (tag 0x05) every
node it wrote that was not already there, and every root it committed. The cleanup
`cleanMultipartLocked` deletes the log, and with `removeNodes` also the logged nodes and
`rootNode` markers at `V`'s timestamp; `Finalize` runs it without `removeNodes` when it
finalizes the restored version, `AbortMultipartInsert` and `New` with it.
-/

namespace Mkvs.Badger

/-- The body of the loop of `cleanMultipartLocked`, for one log entry. -/
def cleanLogEntry (removeNodes : Bool) (batch : WriteBatch) (key : Key) : DbM WriteBatch := do
  let batch ← (if removeNodes then
      match key with
      | .multipartRestoreNodeLog th =>
        if th.type = .invalid then batchDelete batch (.node th.hash)
        else batchDelete batch (.rootNode th)
      | _ => throw .panic
    else pure batch)
  batchDeleteAt batch key tsMetadata

/-- The loop of `cleanMultipartLocked` over the restore log. -/
def cleanLogEntries (removeNodes : Bool) (batch : WriteBatch) : List Key → DbM WriteBatch
  | [] => return batch
  | key :: keys => do cleanLogEntries removeNodes (← cleanLogEntry removeNodes batch key) keys

/-- `cleanMultipartLocked`. -/
def cleanMultipartLocked (removeNodes : Bool) : DbM Unit := do
  let d ← getDb
  let version :=
    if d.multipartVersion ≠ multipartVersionNone then d.multipartVersion
    else d.meta.multipartVersion
  if version = multipartVersionNone then return
  let keys ← txnScan (Txn.new tsMetadata) multipartLogPrefix
  let batch ← cleanLogEntries removeNodes (WriteBatch.new (versionToTs version)) keys
  let _ ← batchFlush batch
  let metaTx ← setMultipartVersion (Txn.new tsMetadata) 0
  txnCommitAt metaTx tsMetadata
  modifyDb fun d => { d with multipartVersion := multipartVersionNone }

/-- `StartMultipartInsert`. -/
def startMultipartInsert (version : Nat) : DbM Unit := do
  if version = multipartVersionNone then throw .invalidMultipartVersion
  let d ← getDb
  if d.multipartVersion ≠ multipartVersionNone then
    if d.multipartVersion ≠ version then throw .multipartInProgress
  else
    let tx ← setMultipartVersion (Txn.new tsMetadata) version
    txnCommitAt tx tsMetadata
    modifyDb fun d => { d with multipartVersion := version }

/-- `AbortMultipartInsert`. -/
def abortMultipartInsert : DbM Unit := cleanMultipartLocked true

/-- `load`: refuse a database whose migration is in progress (a failing read of the marker
is ignored, as in the code), then read the metadata record, or create it. -/
def load : DbM Unit := do
  let tx := Txn.new tsMetadata
  let migration ← tryCatch (txnGet tx .migrationMeta) fun _ => pure none
  if migration.isSome then throw .upgradeInProgress
  match ← txnGet tx .metadata with
  | some (_, .metadata m) =>
    modifyDb fun d => { d with meta := m }
    if m.version ≠ dbVersion then throw .incompatibleVersion
    if m.ns ≠ (← getDb).ns then throw .incompatibleNamespace
  | some _ => throw .corrupt
  | none =>
    modifyDb fun d => { d with meta := { d.meta with version := dbVersion, ns := d.ns } }
    let tx ← metaSave tx
    txnCommitAt tx tsMetadata

/-- The configuration `New` reads. -/
structure Config where
  ns : Nat
  readOnly : Bool
  discardWriteLogs : Bool
deriving DecidableEq, Repr

/-- `New` on the current store: a fresh handle, its metadata loaded, and the remnants of
a multipart restore cleaned up. -/
def new (cfg : Config) : DbM Unit := do
  modifyDb fun d => ⟨cfg.ns, cfg.readOnly, cfg.discardWriteLogs, multipartVersionNone,
    ⟨0, 0, 0, none, 0⟩, d.store⟩
  load
  cleanMultipartLocked true

end Mkvs.Badger
