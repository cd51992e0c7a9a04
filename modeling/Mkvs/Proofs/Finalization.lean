import Mkvs.Proofs.Restore

/-!
# What Finalize keeps

`Finalize(roots)` at version `V` computes the finalized roots, `finalizedRootsOf` of the
roots metadata of `V` and the seeds, and its main loop erases every other root from the
roots map (`finalizeBatch_ok`). Typed hashes carry no version, and `Commit` appends a
root of version `V + 1` to the derived list of its old root of version `V`, so a root of `V`
whose child at `V + 1` has the typed hash of a seed is kept, though no root of `V` derives
from it (`finalize_keeps_parent_of_next_version_child`).

The nodes the dropped roots put at `V` are deleted at `V`'s timestamp unless a kept root put
them at `V`. A kept root that inherited such a node from an older version, without putting
it, then reads the deletion (`finalize_hides_inherited_node`).
-/

namespace Mkvs.Badger

/-! ## The roots the main loop keeps -/

/-- One round of the main loop erases its root from the roots map unless it is finalized, and
deletes the root's updated-node record in the transaction. -/
theorem finalizeRoot_ok {version : Nat} {F : List TypedHash} {acc acc' : FinalizeAcc}
    {r : TypedHash} {w w' : World} (h : (finalizeRoot version F acc r).exec w = (.ok acc', w')) :
    acc'.roots = (if r ∈ F then acc.roots else eraseRoot acc.roots r) ∧
      acc'.rootsChanged = (acc.rootsChanged || decide (r ∉ F)) ∧
      acc'.tx =
        { acc.tx with pending := (.rootUpdatedNodes version r, none) :: acc.tx.pending } := by
  unfold finalizeRoot at h
  obtain ⟨_, _, -, h⟩ := exec_bind_ok h
  obtain ⟨_, _, -, h⟩ := exec_bind_ok h
  obtain ⟨acc₁, _, h₁, h⟩ := exec_bind_ok h
  obtain ⟨tx, _, htx, h⟩ := exec_bind_ok h
  obtain ⟨_, _, -, htx⟩ := exec_bind_ok htx
  simp only [exec_pure, Prod.mk.injEq, Except.ok.injEq] at h htx
  rw [← h.1, ← htx.1]
  split at h₁
  · rename_i hF
    simp only [exec_pure, Prod.mk.injEq, Except.ok.injEq] at h₁
    simp [← h₁.1, hF]
  · rename_i hF
    obtain ⟨_, _, -, h₁⟩ := exec_bind_ok h₁
    split at h₁
    · simp only [exec_pure, Prod.mk.injEq, Except.ok.injEq] at h₁
      simp [← h₁.1, hF]
    · obtain ⟨_, _, -, h₁⟩ := exec_bind_ok h₁
      obtain ⟨_, _, -, h₁⟩ := exec_bind_ok h₁
      simp only [exec_pure, Prod.mk.injEq, Except.ok.injEq] at h₁
      simp [← h₁.1, hF]

/-- The main loop over `keys` erases exactly the roots among `keys` that are not finalized,
records a change exactly when it erases one, and deletes the updated-node record of every
root of `keys`, in their order. -/
theorem finalizeRoots_ok {version : Nat} {F : List TypedHash} :
    ∀ {acc acc' : FinalizeAcc} {keys : List TypedHash} {w w' : World},
      (finalizeRoots version F acc keys).exec w = (.ok acc', w') →
      acc'.roots = acc.roots.filter (fun e => e.1 ∈ F ∨ e.1 ∉ keys) ∧
        acc'.rootsChanged = (acc.rootsChanged || keys.any (· ∉ F)) ∧
        acc'.tx = { acc.tx with pending :=
          (keys.map fun r => (.rootUpdatedNodes version r, none)).reverse ++ acc.tx.pending }
  | acc, acc', [], w, w', h => by
    simp only [finalizeRoots, exec_pure, Prod.mk.injEq, Except.ok.injEq] at h
    simp [← h.1]
  | acc, acc', r :: rs, w, w', h => by
    obtain ⟨acc₁, w₁, h₁, h⟩ := exec_bind_ok h
    obtain ⟨hr₁, hc₁, ht₁⟩ := finalizeRoot_ok h₁
    obtain ⟨hr, hc, ht⟩ := finalizeRoots_ok h
    refine ⟨?_, by rw [hc, hc₁, List.any_cons, Bool.or_assoc], by simp [ht, ht₁]⟩
    rw [hr, hr₁]
    by_cases hrF : r ∈ F
    · simp only [if_pos hrF]
      refine List.filter_congr fun e _ => ?_
      by_cases he : e.1 = r <;> simp [he, hrF]
    · simp only [if_neg hrF, eraseRoot, List.filter_filter]
      refine List.filter_congr fun e _ => ?_
      by_cases he : e.1 = r <;> simp [he, hrF]

/-- What `Finalize` goes on with after its main loop. Every finalized root with a non-empty
hash is in the roots metadata of `V`; the roots map holds exactly the entries of that record
whose root is finalized, and it has changed exactly when some root was not; the transaction,
read at `V`'s timestamp, deletes the updated-node record of every root of the record and
writes nothing else. -/
theorem finalizeBatch_ok {sched : Sched} {roots : List Root} {version : Nat}
    {w w' : World} {acc : FinalizeAcc}
    (h : (finalizeBatch sched roots version).exec w = (.ok acc, w')) :
    ∃ rm w₁, (loadRootsMetadata (Txn.new (versionToTs version)) version).exec w = (.ok rm, w₁) ∧
      (∀ x ∈ finalizedRootsOf rm.roots sched (roots.map TypedHash.fromRoot),
        x.hash.isEmpty = false → (rm.roots.lookup x).isSome = true) ∧
      acc.roots = rm.roots.filter
        (fun e => e.1 ∈ finalizedRootsOf rm.roots sched (roots.map TypedHash.fromRoot)) ∧
      acc.rootsChanged = (rm.roots.map (·.1)).any
        (· ∉ finalizedRootsOf rm.roots sched (roots.map TypedHash.fromRoot)) ∧
      acc.tx = { Txn.new (versionToTs version) with pending :=
        ((rm.roots.map (·.1)).map fun r => (.rootUpdatedNodes version r, none)).reverse } := by
  unfold finalizeBatch at h
  obtain ⟨rm, w₁, hrm, h⟩ := exec_bind_ok h
  refine ⟨rm, w₁, hrm, ?_⟩
  dsimp only at h
  split at h
  · simp only [throw_bind, exec_throw, Prod.mk.injEq, reduceCtorEq, false_and] at h
  rename_i hfound
  obtain ⟨_, _, -, h⟩ := exec_bind_ok h
  obtain ⟨acc₁, _, h₁, h⟩ := exec_bind_ok h
  obtain ⟨_, _, -, h⟩ := exec_bind_ok h
  simp only [exec_pure, Prod.mk.injEq, Except.ok.injEq] at h
  obtain ⟨hr, hc, ht⟩ := finalizeRoots_ok h₁
  rw [← h.1]
  refine ⟨fun x hx hne => ?_,
    hr.trans (List.filter_congr fun e he => by simp [List.mem_map_of_mem _ he]),
    by rw [hc, Bool.false_or], by simp [ht, Txn.new]⟩
  simpa [hne] using List.any_eq_false.1 (Bool.of_not_eq_true hfound) x hx

/-! ## A kept root whose inherited node is deleted

Root `A` of version 1 puts a leaf and is finalized. At version 2, `B` is committed from `A`
with no change, `X` from `A` removes the leaf, and `C` from `X` puts it back. Finalizing `B`
drops `X` and `C`; `C` put the leaf at version 2 and no kept root did, so it is deleted at
version 2's timestamp, where `B` reads it. -/

/-- The roots of the run: `A` at version 1, and `B`, `X` and `C` at version 2. -/
def inheritRootA : Root := ⟨7, 1, .state, 100⟩
def inheritRootB : Root := ⟨7, 2, .state, 200⟩
def inheritRootX : Root := ⟨7, 2, .state, 300⟩
def inheritRootC : Root := ⟨7, 2, .state, 400⟩

/-- The run described above. -/
def inheritTrace : List Call :=
  [⟨.newBatch 0 ⟨7, 1, .state, 0⟩ 1 false, none⟩, ⟨.putNode 0 (.leaf 1 10), none⟩,
    ⟨.commit 0 inheritRootA, none⟩, ⟨.finalize .inOrder [inheritRootA], none⟩,
    ⟨.newBatch 1 inheritRootA 2 false, none⟩, ⟨.commit 1 inheritRootB, none⟩,
    ⟨.newBatch 2 inheritRootA 2 false, none⟩,
    ⟨.removeNodes 2 [(Node.leaf 1 10).getHash], none⟩, ⟨.commit 2 inheritRootX, none⟩,
    ⟨.newBatch 3 inheritRootX 2 false, none⟩, ⟨.putNode 3 (.leaf 1 10), none⟩,
    ⟨.commit 3 inheritRootC, none⟩, ⟨.finalize .inOrder [inheritRootB], none⟩]

set_option maxRecDepth 20000 in
/-- Every call succeeds. `A` was committed from the empty root putting the leaf, and `B`
from `A` with no change; both are kept by the finalization of their versions, and the
earliest version is 1, the first one finalized. `GetNode(B, leaf)` returned the leaf before
the last `Finalize` and fails with `NodeNotFound` after it. -/
theorem finalize_hides_inherited_node :
    let cfg : Config := ⟨7, false, false⟩
    let s := run (Sys.fresh cfg) inheritTrace
    let h := (Node.leaf 1 10).getHash
    s.1.all Except.isOk ∧
      s.2.commits = [⟨inheritRootA, ⟨7, 1, .state, 0⟩, false, [⟨false, h⟩]⟩,
        ⟨inheritRootB, inheritRootA, false, []⟩, ⟨inheritRootX, inheritRootA, false, [⟨true, h⟩]⟩,
        ⟨inheritRootC, inheritRootX, false, [⟨false, h⟩]⟩] ∧
      s.2.query (getRootsForVersion 1) = .ok [inheritRootA] ∧
      s.2.query (getRootsForVersion 2) = .ok [inheritRootB] ∧
      s.2.db.meta.earliestVersion = 1 ∧
      (run (Sys.fresh cfg) (inheritTrace.take 12)).2.query (getNode inheritRootB h) =
        .ok (.leaf 1 10) ∧
      s.2.query (getNode inheritRootB h) = .error .nodeNotFound := by
  decide

/-! ## A root kept through a child of the next version

Roots `S` and `P` of version 1 are committed from the empty root, and `C` of version 2 from
`P`, with the typed hash of `S`. -/

/-- The seed `S`, the root `P`, and `P`'s child `C` of the next version. -/
def crossSeed : Root := ⟨7, 1, .state, 100⟩
def crossParent : Root := ⟨7, 1, .state, 200⟩
def crossChild : Root := ⟨7, 2, .state, 100⟩

/-- The commits described above, then `Finalize([S])`. -/
def crossVersionTrace : List Call :=
  [⟨.newBatch 0 ⟨7, 1, .state, 0⟩ 1 false, none⟩, ⟨.commit 0 crossSeed, none⟩,
    ⟨.newBatch 1 ⟨7, 1, .state, 0⟩ 1 false, none⟩, ⟨.commit 1 crossParent, none⟩,
    ⟨.newBatch 2 crossParent 2 false, none⟩, ⟨.commit 2 crossChild, none⟩,
    ⟨.finalize .inOrder [crossSeed], none⟩]

/-- Every call succeeds, and no root of version 1 was committed from `P`, yet the roots
metadata of version 1 keeps `P` next to `S`; without the commit of `C`, `P` is dropped. -/
theorem finalize_keeps_parent_of_next_version_child :
    let cfg : Config := ⟨7, false, false⟩
    let s := run (Sys.fresh cfg) crossVersionTrace
    s.1.all Except.isOk ∧
      s.2.commits = [⟨crossSeed, ⟨7, 1, .state, 0⟩, false, []⟩,
        ⟨crossParent, ⟨7, 1, .state, 0⟩, false, []⟩, ⟨crossChild, crossParent, false, []⟩] ∧
      s.2.query (getRootsForVersion 1) = .ok [crossSeed, crossParent] ∧
      (run (Sys.fresh cfg) (crossVersionTrace.take 4 ++ crossVersionTrace.drop 6)).2.query
        (getRootsForVersion 1) = .ok [crossSeed] := by
  decide

end Mkvs.Badger
