import Mkvs.Badger.Db

/-!
# Reads

`GetNode`, `HasRoot`, `GetRootsForVersion` and the two version getters. They take no
lock: each reads the in-memory metadata and then the store, `GetNode` at its root's
version timestamp and the two root queries at the metadata timestamp.
-/

namespace Mkvs.Badger

/-- `sanityCheckNamespace`. -/
def sanityCheckNamespace (ns : Nat) : DbM Unit := do
  if ns ≠ (← getDb).ns then throw .badNamespace

/-- `checkRoot`: the root's `rootNode` marker must be visible to `tx`. -/
def checkRoot (tx : Txn) (root : Root) : DbM Unit := do
  if (← txnGet tx (.rootNode (TypedHash.fromRoot root))).isNone then throw .rootNotFound

/-- `GetNode`, for the clean pointer to `h`. -/
def getNode (root : Root) (h : Hash) : DbM Node := do
  sanityCheckNamespace root.ns
  if root.version < (← getDb).meta.earliestVersion then throw .nodeNotFound
  let tx := Txn.new (versionToTs root.version)
  checkRoot tx root
  match ← txnGet tx (.node h) with
  | none => throw .nodeNotFound
  | some (_, .node n) => return n
  | some _ => throw .corrupt

/-- `HasRoot`; a failure to load the roots metadata panics. -/
def hasRoot (root : Root) : DbM Bool := do
  let d ← getDb
  if root.ns ≠ d.ns then return false
  if root.hash.isEmpty then return true
  if root.version < d.meta.earliestVersion then return false
  let rm ← tryCatch (loadRootsMetadata (Txn.new tsMetadata) root.version) fun _ => throw .panic
  return (rm.roots.lookup (TypedHash.fromRoot root)).isSome

/-- `GetRootsForVersion`. -/
def getRootsForVersion (version : Nat) : DbM (List Root) := do
  let d ← getDb
  if version < d.meta.earliestVersion then return []
  let rm ← loadRootsMetadata (Txn.new tsMetadata) version
  return rm.roots.map fun e => ⟨d.ns, version, e.1.type, e.1.hash⟩

/-- `GetLatestVersion`: the last finalized version, if any. -/
def getLatestVersion : DbM (Option Nat) := return (← getDb).meta.lastFinalizedVersion

/-- `GetEarliestVersion`. -/
def getEarliestVersion : DbM Nat := return (← getDb).meta.earliestVersion

end Mkvs.Badger
