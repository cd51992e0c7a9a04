import Mkvs.Badger.Store

/-!
# The database handle and its primitives

`badgerNodeDB` as a record, `badgerBatch` as another, and `DbM`, the monad every
operation runs in. An operation acts on a `World`: the handle, the open batches, and a
fault plan for the backing store. Every step that can fail in the code (a `Get`, a `Set`
or `Delete`, a `Flush`, a `CommitAt`) goes through `tick`, which fails when the fault
plan says so; the state an operation has changed before it fails is kept, as in the code,
where an error returns early without undoing anything.

The metadata helpers and the roots-metadata record are declared outside the sources.
They are modelled from the spec: a setter updates the in-memory record, then writes it
into the transaction it is given.
-/

namespace Mkvs.Badger

/-- The errors the database returns: the `api.Err*` kinds of the spec, the messages that
the code builds with `fmt.Errorf`, a failing backing-store step, an undecodable value, the
store's errors for a finished batch, and a panic. -/
inductive Error
  | readOnly
  | badNamespace
  | nodeNotFound
  | rootNotFound
  | writeLogNotFound
  | rootMustFollowOld
  | previousVersionMismatch
  | notFinalized
  | alreadyFinalized
  | notEarliest
  | cannotPruneLatestVersion
  | multipartInProgress
  | invalidMultipartVersion
  | upgradeInProgress
  /-- "incompatible database version (expected: %d got: %d)" -/
  | incompatibleVersion
  /-- "incompatible namespace (expected: %s got: %s)" -/
  | incompatibleNamespace
  /-- "mkvs/badger: need at least one root to finalize" -/
  | noRootsToFinalize
  /-- "mkvs/badger: roots to finalize don't have matching versions" -/
  | mismatchedRootVersions
  /-- "mkvs/badger: cannot put write log in chunk mode" -/
  | chunkWriteLog
  /-- "mkvs/badger: cannot remove nodes in chunk mode" -/
  | chunkRemoveNodes
  /-- `badger.ErrKeyNotFound`, where the code passes it on -/
  | keyNotFound
  | storage
  | corrupt
  | discardedTxn
  | commitAfterFinish
  | panic
deriving DecidableEq, Repr

/-- Results of operations are compared in statements about concrete runs. -/
instance decEqExcept {ε α : Type} [DecidableEq ε] [DecidableEq α] : DecidableEq (Except ε α)
  | .error a, .error b => decidable_of_iff (a = b) ⟨congrArg _, Except.error.inj⟩
  | .ok a, .ok b => decidable_of_iff (a = b) ⟨congrArg _, Except.ok.inj⟩
  | .error _, .ok _ => isFalse nofun
  | .ok _, .error _ => isFalse nofun

/-- Modelled from the spec: `tsMetadata` is not in the sources. The metadata timestamp is
reserved below every version's timestamp, so that a read at a version's timestamp sees
the metadata. -/
def tsMetadata : Nat := 1

/-- Modelled from the spec: `versionToTs` is not in the sources; versions keep their order
above the metadata timestamp. -/
def versionToTs (version : Nat) : Nat := version + 2

/-- Modelled from the spec: `tsToVersion`, the inverse of `versionToTs`. -/
def tsToVersion (ts : Nat) : Nat := ts - 2

/-- `badgerNodeDB`: the configuration it was opened with, the in-memory multipart version
and metadata record, and the backing store. -/
structure Db where
  ns : Nat
  readOnly : Bool
  discardWriteLogs : Bool
  multipartVersion : Nat
  meta : Metadata
  store : Store

/-- `badgerBatch`. -/
structure Batch where
  bat : WriteBatch
  multipartNodes : Option WriteBatch
  readTxn : Option Txn
  oldRoot : Root
  chunk : Bool
  writeLog : Option WriteLog
  annotations : Option Annotations
  updatedNodes : List UpdatedNode

/-- A handle no `NewBatch` returned: its write batch is finished, so every write fails. -/
def Batch.closed : Batch :=
  ⟨⟨0, [], true⟩, none, none, ⟨0, 0, .invalid, 0⟩, false, none, none, []⟩

/-- What an operation acts on: the database, the batch handles by number, and the fault
plan (`some n`: the backing-store step after the next `n` fails; `none`: none fails). -/
structure World where
  db : Db
  batches : Nat → Batch
  fault : Option Nat

/-- The monad of the database's operations. -/
abbrev DbM := ExceptT Error (StateM World)

/-- Run an operation in a world: its result, and the world it leaves. -/
def DbM.exec {α : Type} (p : DbM α) (w : World) : Except Error α × World := p.run.run w

/-- One backing-store step. -/
def tick : DbM Unit := do
  match (← get).fault with
  | some 0 => throw .storage
  | some (n + 1) => modify fun w => { w with fault := some n }
  | none => pure ()

/-- The database handle. -/
def getDb : DbM Db := return (← get).db

/-- Update the database handle. -/
def modifyDb (f : Db → Db) : DbM Unit := modify fun w => { w with db := f w.db }

/-- The batch handle numbered `id`. -/
def getBatch (id : Nat) : DbM Batch := return (← get).batches id

/-- Replace the batch handle numbered `id`. -/
def setBatch (id : Nat) (ba : Batch) : DbM Unit :=
  modify fun w => { w with batches := fun i => if i = id then ba else w.batches i }

/-! ## Transactions and write batches -/

/-- `Txn.Get`: the transaction's own pending write of `k` first, then the store at the
transaction's read timestamp; `none` is `ErrKeyNotFound`. -/
def txnGet (tx : Txn) (k : Key) : DbM (Option (Nat × Value)) := do
  if tx.discarded then throw .discardedTxn
  tick
  match tx.pending.lookup k with
  | some (some v) => return some (tx.readTs, v)
  | some none => return none
  | none => return (← getDb).store.get k tx.readTs

/-- `Txn.Set`. -/
def txnSet (tx : Txn) (k : Key) (v : Value) : DbM Txn := do
  tick
  return { tx with pending := (k, some v) :: tx.pending }

/-- `Txn.Delete`. -/
def txnDelete (tx : Txn) (k : Key) : DbM Txn := do
  tick
  return { tx with pending := (k, none) :: tx.pending }

/-- `Txn.CommitAt`. -/
def txnCommitAt (tx : Txn) (ts : Nat) : DbM Unit := do
  tick
  modifyDb fun d => { d with store := d.store.commitAt tx ts }

/-- An iterator of the transaction over the keys satisfying `p`. The iterators of the
code never run over keys their transaction has written. -/
def txnScan (tx : Txn) (p : Key → Bool) : DbM (List Key) :=
  return (← getDb).store.scan p tx.readTs

/-- `WriteBatch.SetEntryAt`: a version of `k` at `ts`, `none` for a deletion. -/
def batchWriteAt (b : WriteBatch) (k : Key) (v : Option Value) (ts : Nat) : DbM WriteBatch := do
  if b.finished then throw .discardedTxn
  tick
  return { b with writes := ⟨k, ts, v⟩ :: b.writes }

/-- `WriteBatch.Set`. -/
def batchSet (b : WriteBatch) (k : Key) (v : Value) : DbM WriteBatch :=
  batchWriteAt b k (some v) b.commitTs

/-- `WriteBatch.Delete`. -/
def batchDelete (b : WriteBatch) (k : Key) : DbM WriteBatch :=
  batchWriteAt b k none b.commitTs

/-- `WriteBatch.DeleteAt`. -/
def batchDeleteAt (b : WriteBatch) (k : Key) (ts : Nat) : DbM WriteBatch :=
  batchWriteAt b k none ts

/-- `WriteBatch.Delete` of each of `keys`, in order. -/
def deleteKeys (b : WriteBatch) : List Key → DbM WriteBatch
  | [] => return b
  | k :: ks => do deleteKeys (← batchDelete b k) ks

/-- `WriteBatch.Flush`. -/
def batchFlush (b : WriteBatch) : DbM WriteBatch := do
  if b.finished then throw .commitAfterFinish
  tick
  modifyDb fun d => { d with store := d.store.flush b }
  return { b with finished := true }

/-- `WriteBatch.Cancel`. -/
def WriteBatch.cancel (b : WriteBatch) : WriteBatch := { b with writes := [], finished := true }

/-! ## Metadata -/

/-- Modelled from the spec: `metadata.save` writes the in-memory record into `tx`. -/
def metaSave (tx : Txn) : DbM Txn := do
  txnSet tx .metadata (.metadata (← getDb).meta)

/-- The record after `metadata.setLastFinalizedVersion`: `version` is the last finalized
version, and when no version was finalized before it also becomes the earliest one (scenario
S5: after finalizing 1, 2 and 3, `Prune(1)` succeeds). -/
def Metadata.withLastFinalized (m : Metadata) (version : Nat) : Metadata :=
  { m with
    earliestVersion := if m.lastFinalizedVersion = none then version else m.earliestVersion
    lastFinalizedVersion := some version }

/-- Modelled from the spec: `metadata.setLastFinalizedVersion`. -/
def setLastFinalizedVersion (tx : Txn) (version : Nat) : DbM Txn := do
  modifyDb fun d => { d with meta := d.meta.withLastFinalized version }
  metaSave tx

/-- Modelled from the spec: `metadata.setEarliestVersion`. -/
def setEarliestVersion (tx : Txn) (version : Nat) : DbM Txn := do
  modifyDb fun d => { d with meta := { d.meta with earliestVersion := version } }
  metaSave tx

/-- Modelled from the spec: `metadata.setMultipartVersion`. -/
def setMultipartVersion (tx : Txn) (version : Nat) : DbM Txn := do
  modifyDb fun d => { d with meta := { d.meta with multipartVersion := version } }
  metaSave tx

/-! ## Roots metadata -/

/-- `rootsMetadata`: a version's roots, each with the roots derived from it. The Go map
is a list of distinct keys; a range over it runs in the list's order. -/
structure RootsMetadata where
  roots : List (TypedHash × List TypedHash)
  version : Nat
deriving DecidableEq, Repr

/-- `Roots[h] = l`: replaces the entry of `h`, or adds one. -/
def setRoot (roots : List (TypedHash × List TypedHash)) (h : TypedHash) (l : List TypedHash) :
    List (TypedHash × List TypedHash) :=
  if (roots.lookup h).isSome then roots.map fun e => if e.1 = h then (h, l) else e
  else roots ++ [(h, l)]

/-- `delete(Roots, h)`. -/
def eraseRoot (roots : List (TypedHash × List TypedHash)) (h : TypedHash) :
    List (TypedHash × List TypedHash) :=
  roots.filter (·.1 ≠ h)

/-- Modelled from the spec: `loadRootsMetadata` reads the roots metadata of `version`,
and an absent record is an empty one. -/
def loadRootsMetadata (tx : Txn) (version : Nat) : DbM RootsMetadata := do
  match ← txnGet tx (.rootsMetadata version) with
  | none => return ⟨[], version⟩
  | some (_, .rootsMetadata roots) => return ⟨roots, version⟩
  | some _ => throw .corrupt

/-- Modelled from the spec: `rootsMetadata.save`. -/
def RootsMetadata.save (rm : RootsMetadata) (tx : Txn) : DbM Txn :=
  txnSet tx (.rootsMetadata rm.version) (.rootsMetadata rm.roots)

end Mkvs.Badger
