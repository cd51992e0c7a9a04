import Mkvs.Proofs.FinalizeSeeds
import Mkvs.Proofs.CommitNodes
import Mkvs.Proofs.PruneVisit

/-!
# `Prune` drops the roots of its version only

`Prune(V)` (`badgerNodeDB.Prune`) deletes, in a batch at `V`'s timestamp, nodes, root markers
and write logs of `V`, deletes the roots metadata of `V` in a transaction, and moves the
earliest version to `V + 1` in the same transaction, committed at the metadata timestamp.

The main statement, `prune_drops_only_its_version`, is what the root queries and the store
show of that over every reachable state: after a `Prune(V)` that succeeds on an open
database, `GetEarliestVersion` is `V + 1`, version `V` has no roots left, and for every other
version `GetRootsForVersion` and `HasRoot` answer as before; the roots metadata of `V` is
deleted, so is the marker of each lone root of `V`, and, with a working backing store, each
node written at `V` below a lone root.

## Shape of the proof

* The batch of `Prune` is typed, so it holds no metadata key (`WriteBatch.key_ne_of_typed`),
  and the transaction writes the roots metadata of `V` and the metadata record only
  (`spec_pruneBatch`, `modifyDb_metaSave_result`). Every other roots metadata record
  reads as before at every timestamp (`prune_records`).
* The batch holds deletions only, at `V`'s timestamp, among them what the traversal deleted
  (`spec_pruneBatch`, `pruneBatch_working` of `Mkvs.Proofs.PruneVisit`); flushed below the
  transaction, each reads as deleted there (`Store.get_deleted`).
* The checks of `Prune` put `V` below the last finalized version, which a reachable database
  keeps below `2 ^ 64`, so `V + 1` does not wrap.
* `query_hasRoot_congr` and `query_getRootsForVersion_congr` of `Mkvs.Proofs.Restore` compare
  the queries of the two states version by version.
-/

namespace Mkvs.Badger

variable {ns : Nat}

/-! ## The queries below the earliest version -/

theorem query_getRootsForVersion_below {s : Sys} {v : Nat}
    (h : v < s.db.meta.earliestVersion) : s.query (getRootsForVersion v) = .ok [] := by
  simp only [Sys.query, Sys.world, getRootsForVersion, exec_bind, exec_getDb, exec_ite, exec_pure,
    h, if_true]

theorem query_hasRoot_below {s : Sys} {root : Root} (h : root.version < s.db.meta.earliestVersion)
    (hne : root.hash.isEmpty = false) : s.query (hasRoot root) = .ok false := by
  simp only [Sys.query, Sys.world, hasRoot, exec_bind, exec_getDb, exec_ite, exec_pure, h, hne,
    Bool.false_eq_true, if_true, if_false]
  split_ifs <;> rfl

/-! ## What `Prune` writes -/

/-- `st'` reads as deleted, at `V`'s timestamp, every node of `st` reachable from `h` that was
written at `V`. -/
def Store.TreeDeleted (st st' : Store) (version : Nat) (h : Hash) : Prop :=
  ∀ h', st.Reaches (versionToTs version) h h' → ∀ ts n,
    st.get (.node h') (versionToTs version) = some (ts, .node n) → tsToVersion ts = version →
      st'.get (.node h') (versionToTs version) = none

/-- After a successful `Prune(V)` from a typed open database, `V` was the earliest version and
the earliest version is `V + 1`; the namespace is unchanged, and so is every read of the roots
metadata of another version. The roots metadata of `V` is deleted, and so is the marker of
each lone root of `V`; with a working store, so is each node written at `V` below it. -/
theorem prune_records {w w' : World} (hw : w.Ok ns) {version : Nat}
    (h : (prune version).exec w = (.ok (), w')) :
    w'.db.ns = w.db.ns ∧ version = w.db.meta.earliestVersion ∧
      w'.db.meta.earliestVersion = version + 1 ∧
      (∀ v, v ≠ version → ∀ t,
        w'.db.store.get (.rootsMetadata v) t = w.db.store.get (.rootsMetadata v) t) ∧
      w'.db.store.get (.rootsMetadata version) tsMetadata = none ∧
      ∀ roots, w.db.RootsRecordIs version roots → ∀ rh, (rh, []) ∈ roots →
        w'.db.store.get (.rootNode rh) (versionToTs version) = none ∧
        (w.fault = none → w.db.store.TreeDeleted w'.db.store version rh.hash) := by
  unfold prune at h
  obtain ⟨tx, w₁, hf, h⟩ := exec_bind_ok h
  obtain ⟨tx₂, w₂, hset, hc⟩ := exec_bind_ok h
  unfold pruneFlush at hf
  obtain ⟨_, w₀, hck, hf⟩ := exec_bind_ok hf
  obtain ⟨hw₀, -, -, hv, l, hl, hvl⟩ := pruneChecks_ok hck
  subst w₀
  obtain ⟨⟨tx₀, b⟩, w₃, hb, hf⟩ := exec_bind_ok hf
  obtain ⟨_, w₄, hfl, hf⟩ := exec_bind_ok hf
  simp only [exec_pure, Prod.mk.injEq, Except.ok.injEq] at hf
  obtain ⟨rfl, rfl⟩ := hf
  -- the batch, flushed, and the transaction, committed
  have hspec := spec_pruneBatch w.db version w rfl
  rw [hb] at hspec
  have hQ := hspec.2 _ rfl
  dsimp only at hQ
  obtain ⟨htx₀, hbd, hmark⟩ := hQ
  subst htx₀
  have hT : b.commitTs = versionToTs version := hbd.1
  have hbt := ((typedSpec_pruneBatch version w hw).2 _ (by rw [hb])).2
  have hw₄ : w₄.db = { w.db with store := w.db.store.flush b } := by
    rw [batchFlush_ok hfl, hspec.1]
  obtain ⟨hw₂, m, rfl⟩ := modifyDb_metaSave_result hset
  rw [txnCommitAt_ok hc, hw₂, hw₄]
  -- the transaction writes the metadata record and the roots metadata of `V` only
  have hcommit : ∀ k, k ≠ .metadata → k ≠ .rootsMetadata version → ∀ t,
      ((w.db.store.flush b).commitAt { Txn.new (versionToTs version) with
        pending := [(.metadata, some (.metadata m)), (.rootsMetadata version, none)] }
        tsMetadata).get k t =
        (w.db.store.flush b).get k t := by
    intro k hk₁ hk₂ t
    rw [Store.commitAt, Store.get_append_of_not_visible fun e he => .inl ?_]
    obtain ⟨p, hp, rfl⟩ := List.mem_map.1 he
    rcases List.mem_cons.1 hp with rfl | hp
    · exact fun h => hk₁ h.symm
    · rw [List.mem_singleton.1 hp]
      exact fun h => hk₂ h.symm
  -- the batch deletes at `V`'s timestamp what it holds
  have hdel {k : Key} (hk : ⟨k, versionToTs version, none⟩ ∈ b.writes) :
      (w.db.store.flush b).get k (versionToTs version) = none := by
    rw [← hT] at hk ⊢
    exact Store.get_deleted (hT ▸ hbd) hk _
  refine ⟨rfl, hv, Nat.mod_eq_of_lt (Nat.lt_of_le_of_lt hvl (hw.2.2.2.last_lt l hl)),
    fun v hne t => ?_, ?_, fun roots hrec rh hrh => ?_⟩
  · -- neither the transaction nor the batch writes the roots metadata of `v`
    rw [hcommit (.rootsMetadata v) nofun fun hk => hne (Key.rootsMetadata.inj hk), Store.flush,
      Store.get_append_of_not_visible fun e he =>
        .inl (WriteBatch.key_ne_of_typed (k := .rootsMetadata v) hbt he rfl)]
  · have hread := Store.get_commitAt (w.db.store.flush b) { Txn.new (versionToTs version) with
      pending := [(.metadata, some (.metadata m)), (.rootsMetadata version, none)] }
      (.rootsMetadata version)
    have hne : (Key.rootsMetadata version == Key.metadata) = false := beq_false_of_ne nofun
    simp only [List.lookup_cons, hne, beq_self_eq_true] at hread
    exact Option.map_eq_none'.1 hread
  -- the record `Prune` loaded is the stored one
  have hview : (w.db.store.get (.rootsMetadata version) (versionToTs version)).map Prod.snd =
      some (.rootsMetadata roots) := by
    rw [Store.get_meta hw.1.store (k := .rootsMetadata version) rfl
      (show tsMetadata ≤ versionToTs version from Nat.le_add_left 1 (version + 1))]
    rcases hrec with hrec | ⟨-, rfl⟩
    · exact hrec
    · cases hrh
  refine ⟨by rw [hcommit (.rootNode rh) nofun nofun]; exact hdel (hmark roots hview rh hrh),
    fun hf h' hr ts n hg hvn => ?_⟩
  have hW : w = ⟨w.db, w.batches, none⟩ := by
    cases w
    cases hf
    rfl
  rw [hW] at hb
  rw [hcommit (.node h') nofun nofun]
  exact hdel (hT ▸ pruneBatch_working w.db w.batches hw.1.store version hb roots hview rh hrh
    h' hr ts n hg hvn)

/-- After a successful `Prune(V)` on an open reachable database, `GetEarliestVersion` is
`V + 1` and version `V` has no roots left, while for every other version `GetRootsForVersion`
and `HasRoot` answer as before. The store no longer holds the roots metadata of `V` nor the
marker of a lone root of `V`, and, with a working backing store, no node written at `V` that is
reachable from such a root. -/
theorem prune_drops_only_its_version {cfg : Config} {s s' : Sys} (hs : Reachable cfg s)
    (ho : s.isOpen = true) {version : Nat} {fault : Option Nat}
    (h : step s ⟨.prune version, fault⟩ = (.ok (), s')) :
    s'.query getEarliestVersion = .ok (version + 1) ∧
      s'.query (getRootsForVersion version) = .ok [] ∧
      (∀ root : Root, root.version = version → root.hash.isEmpty = false →
        s'.query (hasRoot root) = .ok false) ∧
      (∀ v, v ≠ version → s'.query (getRootsForVersion v) = s.query (getRootsForVersion v)) ∧
      (∀ root : Root, root.version ≠ version →
        s'.query (hasRoot root) = s.query (hasRoot root)) ∧
      s'.db.store.get (.rootsMetadata version) tsMetadata = none ∧
      ∀ roots, s.db.RootsRecordIs version roots → ∀ rh, (rh, []) ∈ roots →
        s'.db.store.get (.rootNode rh) (versionToTs version) = none ∧
        (fault = none → s.db.store.TreeDeleted s'.db.store version rh.hash) := by
  have hc : ∀ cfg, Action.prune version ≠ .reopen cfg := fun _ => nofun
  obtain ⟨w', hx, hdb, -⟩ := exec_of_step hc h
  have hT := reachable_typed hs
  obtain ⟨hns, hv, he, hread, hmeta, hlone⟩ := prune_records ⟨hT.world_of fault, hT.meta ho⟩ hx
  rw [← hdb] at hns he hread hmeta hlone
  -- a version other than `V` is pruned after the call exactly when it was before
  have hiff {v : Nat} (hne : v ≠ version) :
      v < s'.db.meta.earliestVersion ↔ v < s.db.meta.earliestVersion := by
    change version = s.db.meta.earliestVersion at hv
    omega
  have hlt : version < s'.db.meta.earliestVersion := by omega
  refine ⟨by rw [← he]; rfl, query_getRootsForVersion_below hlt,
    fun root hr hne => query_hasRoot_below (hr ▸ hlt) hne,
    fun v hne => query_getRootsForVersion_congr hns (hiff hne) (hread v hne _),
    fun root hne => query_hasRoot_congr hns (hiff hne) (hread _ hne _), hmeta, hlone⟩

/-- A second root of version 0, with a leaf of its own, from which nothing is committed. -/
def loneRoot : Root := ⟨7, 0, .state, (Node.leaf 2 20).getHash⟩

/-- The root of version 1 committed over the leaf root, with a new leaf. -/
def nextRoot : Root := ⟨7, 1, .state, (Node.leaf 3 30).getHash⟩

/-- `leafRoot` and `loneRoot` committed and finalized at version 0, then `nextRoot` committed
from `leafRoot` and finalized at version 1: `loneRoot` is the one lone root of version 0. -/
def pruneCalls : List Call :=
  batchCalls 1 ⟨7, 0, .state, 0⟩ 0 false [.putNode (.leaf 2 20)] ++
    [⟨.commit 1 loneRoot, none⟩, ⟨.finalize .inOrder [leafRoot, loneRoot], none⟩] ++
    batchCalls 0 leafRoot 1 false [.putNode (.leaf 3 30)] ++
    [⟨.commit 0 nextRoot, none⟩, ⟨.finalize .inOrder [nextRoot], none⟩]

/-- The state `pruneCalls` leads to from `leafCommitted`. -/
def prunable : Sys := (run leafCommitted pruneCalls).2

theorem reachable_prunable : Reachable ⟨7, false, false⟩ prunable := by
  refine (reachable_run reachable_leafCommitted (by decide) fun c hc => ?_).1
  simp only [pruneCalls, batchCalls, opCalls, List.map, List.cons_append, List.nil_append,
    List.append_assoc, List.mem_cons, List.mem_singleton, List.not_mem_nil, or_false] at hc
  rcases hc with rfl | rfl | rfl | rfl | rfl | rfl | rfl | rfl
  · exact ⟨⟨by decide, by decide⟩, nofun⟩
  · exact ⟨trivial, nofun⟩
  · exact ⟨show 0 < 2 ^ 64 by decide, nofun⟩
  · exact ⟨show ∀ r ∈ [leafRoot, loneRoot], r.version < 2 ^ 64 by decide, nofun⟩
  · exact ⟨⟨by decide, by decide⟩, nofun⟩
  · exact ⟨trivial, nofun⟩
  · exact ⟨show 1 < 2 ^ 64 by decide, nofun⟩
  · exact ⟨show ∀ r ∈ [nextRoot], r.version < 2 ^ 64 by decide, nofun⟩

/-- The state after `Prune(0)`. -/
def pruned : Sys := (step prunable ⟨.prune 0, none⟩).2

set_option maxRecDepth 10000 in
theorem step_pruned : step prunable ⟨.prune 0, none⟩ = (.ok (), pruned) :=
  Prod.ext (by decide) rfl

theorem prune_drops_only_its_version_leaf :
    (Reachable ⟨7, false, false⟩ prunable ∧ prunable.isOpen = true ∧
      step prunable ⟨.prune 0, none⟩ = (.ok (), pruned)) ∧
    pruned.query getEarliestVersion = .ok (0 + 1) ∧
      pruned.query (getRootsForVersion 0) = .ok [] ∧
      (∀ root : Root, root.version = 0 → root.hash.isEmpty = false →
        pruned.query (hasRoot root) = .ok false) ∧
      (∀ v, v ≠ 0 → pruned.query (getRootsForVersion v) = prunable.query (getRootsForVersion v)) ∧
      (∀ root : Root, root.version ≠ 0 →
        pruned.query (hasRoot root) = prunable.query (hasRoot root)) ∧
      pruned.db.store.get (.rootsMetadata 0) tsMetadata = none ∧
      ∀ roots, prunable.db.RootsRecordIs 0 roots → ∀ rh, (rh, []) ∈ roots →
        pruned.db.store.get (.rootNode rh) (versionToTs 0) = none ∧
        ((none : Option Nat) = none → prunable.db.store.TreeDeleted pruned.db.store 0 rh.hash) :=
  ⟨⟨reachable_prunable, by decide, step_pruned⟩,
    prune_drops_only_its_version reachable_prunable (by decide) step_pruned⟩

set_option maxRecDepth 10000 in
/-- `Prune(0)` deletes the leaf of `loneRoot`, written at version 0, and keeps that of
`leafRoot`, from which `nextRoot` derives; the root of version 1 is still listed. -/
example : prunable.db.store.get (.node (Node.leaf 2 20).getHash) (versionToTs 0) ≠ none ∧
    pruned.db.store.get (.node (Node.leaf 2 20).getHash) (versionToTs 0) = none ∧
    pruned.db.store.get (.node (Node.leaf 1 10).getHash) (versionToTs 0) ≠ none ∧
    pruned.query (getRootsForVersion 1) = .ok [nextRoot] := by
  decide

end Mkvs.Badger
