import Mkvs.Badger.Read

/-!
# Prune

`Prune(V)` drops the earliest version: it deletes, at `V`'s timestamp, the nodes written
at `V` that are reachable from a lone root (one with no derived root), those roots'
`rootNode` markers and all the write logs of `V`; then it deletes `V`'s roots metadata and
moves the earliest version to `V + 1`.

The traversal is `api.Visit`, which is not in the sources: a pre-order visit that reads
every node through `GetNode`. Its recursion is bounded by the hash of the node visited,
which is above the hashes of its children (`Node.lt_getHash_of_mem_children`).
-/

namespace Mkvs.Badger

/-- Modelled from the spec: `api.Visit`. Reads the node `h` of `root` with `GetNode`,
passes it to the visitor, and unless the visitor answers `false` visits its children in
order. It returns the visitor's state and the first `GetNode` error, which ends the
visit. The empty tree has no nodes. -/
def visit {σ : Type} (root : Root) (f : Node → σ → DbM (Bool × σ)) :
    Nat → Hash → σ → DbM (σ × Option Error)
  | 0, _, acc => return (acc, none)
  | fuel + 1, h, acc => do
    if h.isEmpty then return (acc, none)
    match ← tryCatch (Except.ok <$> getNode root h) fun e => pure (.error e) with
    | .error e => return (acc, some e)
    | .ok n =>
      let (descend, acc) ← f n acc
      if !descend then return (acc, none)
      n.children.foldlM (fun (r : σ × Option Error) c =>
        if r.2.isSome then pure r else visit root f fuel c r.1) (acc, none)

/-- The visitor of `Prune`, over the batch and `innerErr`. Every call assigns `innerErr`,
so only the last node visited decides it, as in the code. -/
def pruneVisitor (version : Nat) (tx : Txn) (n : Node) (acc : WriteBatch × Option Error) :
    DbM (Bool × (WriteBatch × Option Error)) := do
  let h := n.getHash
  match ← tryCatch (Except.ok <$> txnGet tx (.node h)) fun e => pure (.error e) with
  | .error e => return (false, (acc.1, some e))
  | .ok none => return (false, (acc.1, some .keyNotFound))
  | .ok (some (ts, _)) =>
    if tsToVersion ts = version then
      match ← tryCatch (Except.ok <$> batchDelete acc.1 (.node h)) fun e => pure (.error e) with
      | .error e => return (false, (acc.1, some e))
      | .ok b => return (true, (b, none))
    else return (true, (acc.1, none))

/-- The loop of `Prune` over the roots of the version: visit each lone root and delete its
`rootNode` marker. -/
def pruneLoneRoots (version : Nat) (tx : Txn) :
    List (TypedHash × List TypedHash) → WriteBatch → DbM WriteBatch
  | [], b => return b
  | (rootHash, derivedRoots) :: rest, b => do
    if !derivedRoots.isEmpty then pruneLoneRoots version tx rest b
    else
      let root : Root := ⟨(← getDb).ns, version, rootHash.type, rootHash.hash⟩
      let ((b, innerErr), err) ←
        visit root (pruneVisitor version tx) (rootHash.hash + 1) rootHash.hash (b, none)
      if let some e := innerErr then throw e
      if let some e := err then throw e
      let b ← batchDelete b (.rootNode rootHash)
      pruneLoneRoots version tx rest b

/-- The checks `Prune` makes before it reads anything. -/
def pruneChecks (version : Nat) : DbM Unit := do
  let d ← getDb
  if d.readOnly then throw .readOnly
  if d.multipartVersion ≠ multipartVersionNone then throw .multipartInProgress
  let some l := d.meta.lastFinalizedVersion | throw .notFinalized
  if l < version then throw .notFinalized
  if version ≠ d.meta.earliestVersion then throw .notEarliest
  if version = l then throw .cannotPruneLatestVersion

/-- `Prune` after its checks and before it writes: the traversal of the lone roots and the
deletion of the write logs, collected in a batch; the roots metadata is deleted in the
transaction. -/
def pruneBatch (version : Nat) : DbM (Txn × WriteBatch) := do
  let tx := Txn.new (versionToTs version)
  let rm ← loadRootsMetadata tx version
  let batch ← pruneLoneRoots version tx rm.roots (WriteBatch.new (versionToTs version))
  let tx ← txnDelete tx (.rootsMetadata version)
  let batch ← if (← getDb).discardWriteLogs then pure batch
    else
      let keys ← txnScan (Txn.new (versionToTs version)) (writeLogVersionPrefix version)
      deleteKeys batch keys
  return (tx, batch)

/-- `Prune` up to and including the flush of its batch. -/
def pruneFlush (version : Nat) : DbM Txn := do
  pruneChecks version
  let r ← pruneBatch version
  let _ ← batchFlush r.2
  return r.1

/-- `Prune`; `version + 1` is computed in 64 bits. -/
def prune (version : Nat) : DbM Unit := do
  let tx ← pruneFlush version
  let tx ← setEarliestVersion tx ((version + 1) % 2 ^ 64)
  txnCommitAt tx tsMetadata

end Mkvs.Badger
