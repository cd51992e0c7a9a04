import Mkvs.Badger.Multipart

/-!
# Finalize

`Finalize(roots)` keeps, in the roots metadata of the roots' version `V`, the given roots
and every root from which one of them is reachable through derived-root links, and drops
the others. Nodes that a dropped root put at `V` are deleted at `V`'s timestamp unless a
kept root put them too; nodes a kept root removed are deleted unless a kept root put them.

Go ranges over a map in an order it picks at random, every time. The closure loop, the
only place where that order could change a result, takes it from a `Sched`: any
permutation of the roots, pass by pass. The loop runs while a pass changes something.
`ClosureRun` is that loop as written, with no bound on its passes; `closureLoop`, which
`Finalize` computes with, gives it one more pass than there are roots, after which no pass
can change anything (each pass that does finalizes one more root). `Mkvs.Proofs.Closure`
shows the two agree.
-/

namespace Mkvs.Badger

/-- The order in which each pass of the closure loop ranges over the roots: any
permutation, chosen anew for every pass. -/
structure Sched where
  pass : Nat → List TypedHash → List TypedHash
  perm : ∀ n l, (pass n l).Perm l

/-- The schedule that ranges over the roots in their stored order. -/
def Sched.inOrder : Sched := ⟨fun _ l => l, fun _ l => List.Perm.refl l⟩

/-- The inner loop of one closure pass, over the derived roots of `rootHash`. -/
def closureStep (rootHash : TypedHash) (acc : List TypedHash × Bool) (nextRoot : TypedHash) :
    List TypedHash × Bool :=
  if rootHash ∉ acc.1 ∧ nextRoot ∈ acc.1 then (rootHash :: acc.1, true) else acc

/-- One pass of the closure loop over the roots in the order `keys`: the finalized roots
after it, and whether it finalized one. -/
def closurePass (roots : List (TypedHash × List TypedHash)) (keys : List TypedHash)
    (finalizedRoots : List TypedHash) : List TypedHash × Bool :=
  keys.foldl (fun acc rootHash =>
    let derivedRoots := (roots.lookup rootHash).getD []
    if derivedRoots.isEmpty then acc else derivedRoots.foldl (closureStep rootHash) acc)
    (finalizedRoots, false)

/-- The closure loop: passes until one finalizes nothing, at most `fuel` of them. -/
def closureLoop (roots : List (TypedHash × List TypedHash)) (sched : Sched) :
    Nat → Nat → List TypedHash → List TypedHash
  | 0, _, finalizedRoots => finalizedRoots
  | fuel + 1, n, finalizedRoots =>
    let r := closurePass roots (sched.pass n (roots.map (·.1))) finalizedRoots
    if r.2 then closureLoop roots sched fuel (n + 1) r.1 else r.1

/-- The closure loop as the code writes it, with no bound on its passes:
`ClosureRun roots sched n F k F'` when the loop, started at pass `n` with the finalized roots
`F`, makes `k` passes and ends with `F'`. It stops after the first pass that finalizes
nothing. -/
inductive ClosureRun (roots : List (TypedHash × List TypedHash)) (sched : Sched) :
    Nat → List TypedHash → Nat → List TypedHash → Prop
  | stop {n : Nat} {F : List TypedHash} :
      (closurePass roots (sched.pass n (roots.map (·.1))) F).2 = false →
      ClosureRun roots sched n F 1 (closurePass roots (sched.pass n (roots.map (·.1))) F).1
  | next {n k : Nat} {F F' : List TypedHash} :
      (closurePass roots (sched.pass n (roots.map (·.1))) F).2 = true →
      ClosureRun roots sched (n + 1) (closurePass roots (sched.pass n (roots.map (·.1))) F).1
        k F' →
      ClosureRun roots sched n F (k + 1) F'

/-- The set of finalized roots `Finalize` computes from its seeds. -/
def finalizedRootsOf (roots : List (TypedHash × List TypedHash)) (sched : Sched)
    (seeds : List TypedHash) : List TypedHash :=
  closureLoop roots sched (roots.length + 1) 0 seeds

/-- Add `h` to a set of hashes kept as a list. -/
def addHash (s : List Hash) (h : Hash) : List Hash := if h ∈ s then s else s ++ [h]

/-- The hashes in an updated-nodes record that were removed (`removed = true`) or put. -/
def updatedHashes (l : List UpdatedNode) (removed : Bool) : List Hash :=
  (l.filter (·.removed == removed)).map (·.hash)

/-- What the main loop of `Finalize` carries: the roots map being pruned, whether it
changed, the two node sets, the version batch and the transaction. -/
structure FinalizeAcc where
  roots : List (TypedHash × List TypedHash)
  rootsChanged : Bool
  maybeLoneNodes : List Hash
  notLoneNodes : List Hash
  versionBatch : WriteBatch
  tx : Txn
deriving DecidableEq

/-- The main loop's body for one root of version `version`. A missing or undecodable
updated-nodes record panics. -/
def finalizeRoot (version : Nat) (finalizedRoots : List TypedHash) (acc : FinalizeAcc)
    (rootHash : TypedHash) : DbM FinalizeAcc := do
  let key := Key.rootUpdatedNodes version rootHash
  let item ← tryCatch (txnGet acc.tx key) fun _ => throw .panic
  let updatedNodes ← (match item with
    | some (_, .updatedNodes l) => pure l
    | _ => throw .panic)
  let acc ← (if rootHash ∈ finalizedRoots then
      pure { acc with
        maybeLoneNodes := (updatedHashes updatedNodes true).foldl addHash acc.maybeLoneNodes
        notLoneNodes := (updatedHashes updatedNodes false).foldl addHash acc.notLoneNodes }
    else do
      let acc := { acc with
        maybeLoneNodes := (updatedHashes updatedNodes false).foldl addHash acc.maybeLoneNodes
        roots := eraseRoot acc.roots rootHash
        rootsChanged := true }
      if (← getDb).discardWriteLogs then pure acc
      else
        let keys ← txnScan acc.tx (writeLogPrefix version rootHash)
        pure { acc with versionBatch := ← deleteKeys acc.versionBatch keys })
  let tx ← txnDelete acc.tx key
  return { acc with tx }

/-- The main loop of `Finalize`, over the roots in their stored order. -/
def finalizeRoots (version : Nat) (finalizedRoots : List TypedHash) :
    FinalizeAcc → List TypedHash → DbM FinalizeAcc
  | acc, [] => return acc
  | acc, r :: rs => do
    finalizeRoots version finalizedRoots (← finalizeRoot version finalizedRoots acc r) rs

/-- The loop that deletes the lone nodes. -/
def deleteLoneNodes (notLoneNodes : List Hash) (b : WriteBatch) : List Hash → DbM WriteBatch
  | [] => return b
  | h :: hs => do
    let b ← if h ∈ notLoneNodes then pure b else batchDelete b (.node h)
    deleteLoneNodes notLoneNodes b hs

/-- The checks `Finalize` makes before it reads anything. -/
def finalizeChecks (roots : List Root) : DbM Nat := do
  let d ← getDb
  if d.readOnly then throw .readOnly
  let some first := roots.head? | throw .noRootsToFinalize
  let version := first.version
  if d.multipartVersion ≠ multipartVersionNone ∧ d.multipartVersion ≠ version then
    throw .invalidMultipartVersion
  if let some l := d.meta.lastFinalizedVersion then
    if d.multipartVersion = multipartVersionNone ∧ 0 < version ∧ l < version - 1 then
      throw .notFinalized
    if version ≤ l then throw .alreadyFinalized
  if roots.any (·.version ≠ version) then throw .mismatchedRootVersions
  return version

/-- `Finalize` after its checks and before it writes: the closure, the main loop and the
lone nodes. The main loop's result it returns has every deletion in its version batch. -/
def finalizeBatch (sched : Sched) (roots : List Root) (version : Nat) : DbM FinalizeAcc := do
  let tx := Txn.new (versionToTs version)
  let rm ← loadRootsMetadata tx version
  let finalizedRoots := finalizedRootsOf rm.roots sched (roots.map TypedHash.fromRoot)
  if finalizedRoots.any fun r => (rm.roots.lookup r).isNone && !r.hash.isEmpty then
    throw .rootNotFound
  let acc ← finalizeRoots version finalizedRoots
    ⟨rm.roots, false, [], [], WriteBatch.new (versionToTs version), tx⟩ (rm.roots.map (·.1))
  let versionBatch ← deleteLoneNodes acc.notLoneNodes acc.versionBatch acc.maybeLoneNodes
  return { acc with versionBatch }

/-- `Finalize` up to and including the flush of its version batch. -/
def finalizeFlush (sched : Sched) (roots : List Root) : DbM (Nat × FinalizeAcc) := do
  let version ← finalizeChecks roots
  let acc ← finalizeBatch sched roots version
  let _ ← batchFlush acc.versionBatch
  return (version, acc)

/-- `Finalize` after the flush: commit the roots metadata and the last finalized version,
then close a restore of the version without removing its nodes. -/
def finalizeCommit (version : Nat) (acc : FinalizeAcc) : DbM Unit := do
  let tx ← (if acc.rootsChanged then RootsMetadata.save ⟨acc.roots, version⟩ acc.tx
    else pure acc.tx)
  let tx ← setLastFinalizedVersion tx version
  txnCommitAt tx tsMetadata
  if (← getDb).multipartVersion ≠ multipartVersionNone then cleanMultipartLocked false

/-- `Finalize`. -/
def finalize (sched : Sched) (roots : List Root) : DbM Unit := do
  let r ← finalizeFlush sched roots
  finalizeCommit r.1 r.2

end Mkvs.Badger
