import Mkvs.Badger.Read

/-!
# Write-log retrieval

`GetWriteLog` searches breadth first from the end root towards the start root, over the
write logs stored at the end root's version: a write log keyed `(V, n, o)` is an edge from
`n` back to `o`. The search refuses paths of more than `maxAllowedHops` edges. When it
reaches the start root, the logs of the path are streamed through
`ReviveHashedDBWriteLogs`, in the order the path lists them: from the end root back.

The search loop runs while its queue is not empty. It is modelled with a fuel argument
that `GetWriteLog` sets above the number of keys in the store, which bounds the number of
items the search can queue (see `Mkvs.Proofs.WriteLogSearch`). Context cancellation is
real-time behaviour and is left out.
-/

namespace Mkvs.Badger

/-- `maxAllowedHops`. -/
def maxAllowedHops : Nat := 2

/-- `wlItem`: a search item with its depth, the root it reached, and the keys and new
roots of the write logs on its path from the end root. -/
structure WlItem where
  depth : Nat
  endRootHash : TypedHash
  logKeys : List Key
  logRoots : List TypedHash
deriving DecidableEq, Repr

/-- The item one write log `key` (whose old root is `decStartRootHash`) leads to from `cur`. -/
def WlItem.next (cur : WlItem) (key : Key) (decStartRootHash : TypedHash) : WlItem :=
  ⟨cur.depth + 1, decStartRootHash, cur.logKeys ++ [key], cur.logRoots ++ [cur.endRootHash]⟩

/-- The inner loop of the search over the write logs that end in `cur`'s root, in key
order: the item that reaches the start root, if one does, or the items to queue. A key
that does not decode as a write log panics ("bad iterator"). -/
def scanWriteLogs (startRootHash : TypedHash) (cur : WlItem) :
    List Key → Except Error (Option WlItem × List WlItem)
  | [] => .ok (none, [])
  | key :: keys =>
    match key with
    | .writeLog _ _ decStartRootHash =>
      let nextItem := cur.next key decStartRootHash
      if nextItem.endRootHash = startRootHash then .ok (some nextItem, [])
      else do
        let (found, queued) ← scanWriteLogs startRootHash cur keys
        return (found, if nextItem.depth < maxAllowedHops then nextItem :: queued else queued)
    | _ => .error .panic

/-- The outer loop of the search: take the queue's first item and scan the write logs
that end in its root. -/
def searchWriteLogs (s : Store) (readTs version : Nat) (startRootHash : TypedHash) :
    Nat → List WlItem → Except Error (Option WlItem)
  | _, [] => .ok none
  | 0, _ :: _ => .ok none
  | fuel + 1, curItem :: queue => do
    let keys := s.scan (writeLogPrefix version curItem.endRootHash) readTs
    match ← scanWriteLogs startRootHash curItem keys with
    | (some item, _) => return some item
    | (none, queued) => searchWriteLogs s readTs version startRootHash fuel (queue ++ queued)

/-- The iterator `GetWriteLog` returns: its read transaction, the end root, and the path. -/
structure WriteLogIterator where
  tx : Txn
  endRoot : Root
  logKeys : List Key
  logRoots : List TypedHash
deriving DecidableEq, Repr

/-- The value getter of `GetWriteLog`: an inserted value is read back from its leaf with
`GetNode`; a node that is not a leaf panics. -/
def rehydrate (root : Root) (e : HashedDBLogEntry) : DbM LogEntry := do
  match e.insertedHash with
  | none => return ⟨e.key, none⟩
  | some h =>
    match ← getNode root h with
    | .leaf _ v => return ⟨e.key, some v⟩
    | .internal .. => throw .panic

/-- Modelled from the spec: `api.ReviveHashedDBWriteLogs` is not in the sources. It
streams the logs the getter returns, in the getter's order, each entry rehydrated; an
error ends the stream. The getter of `GetWriteLog` returns the path's logs by index, each
read with the iterator's transaction and paired with the root it leads to. -/
def reviveLogs (tx : Txn) (endRoot : Root) : List (Key × TypedHash) → DbM WriteLog
  | [] => return []
  | (key, th) :: rest => do
    let root : Root := ⟨endRoot.ns, endRoot.version, th.type, th.hash⟩
    let log ← match ← txnGet tx key with
      | some (_, .writeLog log) => pure log
      | some _ => throw .corrupt
      | none => throw .keyNotFound
    let entries ← log.mapM (rehydrate root)
    return entries ++ (← reviveLogs tx endRoot rest)

/-- Drain the iterator: every entry it yields, in order. -/
def WriteLogIterator.drain (it : WriteLogIterator) : DbM WriteLog :=
  reviveLogs it.tx it.endRoot (it.logKeys.zip it.logRoots)

/-- `GetWriteLog`. -/
def getWriteLog (startRoot endRoot : Root) : DbM WriteLogIterator := do
  let d ← getDb
  if d.discardWriteLogs then throw .writeLogNotFound
  if !endRoot.follows startRoot then throw .rootMustFollowOld
  sanityCheckNamespace startRoot.ns
  if endRoot.version < d.meta.earliestVersion then throw .writeLogNotFound
  let tx := Txn.new (versionToTs endRoot.version)
  checkRoot tx endRoot
  let s := (← getDb).store
  let queue : List WlItem := [⟨0, TypedHash.fromRoot endRoot, [], []⟩]
  match searchWriteLogs s tx.readTs endRoot.version (TypedHash.fromRoot startRoot)
      (s.entries.length + 1) queue with
  | .error e => throw e
  | .ok (some item) => return ⟨tx, endRoot, item.logKeys, item.logRoots⟩
  | .ok none => throw .writeLogNotFound

end Mkvs.Badger
