import Mkvs.Proofs.CommitRoots
import Mkvs.Proofs.Finalization
import Mkvs.Proofs.Closure

/-!
# The roots `Finalize` is given are found

`Finalize(roots)` (`badgerNodeDB.Finalize`) makes the roots' version `V` the last finalized
one and rewrites the roots metadata of `V`: the record keeps the given roots and those from
which one of them is reachable, and drops the others. `GetLatestVersion`, `HasRoot` and
`GetRootsForVersion` read the result.

Two statements close that loop over every reachable state. After a `Finalize` that
succeeds on an open database:

* `finalize_prunes_roots`: the record of `V` it leaves is the stored one with exactly the
  entries that the closure loop finalizes over it, and `GetRootsForVersion V` lists those;
* `finalize_keeps_seeds`: `GetLatestVersion` is `V`, and every given root of the database's
  namespace with a non-empty hash is found by `HasRoot` and listed by `GetRootsForVersion V`.

## Shape of the proof

* The closure loop never unfinalizes a root, so the seeds are finalized
  (`mem_finalizedRootsOf`); the check of `Finalize` that every finalized root with a
  non-empty hash is in the record of `V` (`finalizeBatch_ok`) then puts each seed there.
* The main loop's transaction only deletes updated-node records, so it sees the record of
  `V` as a fresh transaction at `V`'s timestamp does (`Txn.view_of_unwritten`), and the
  version batch holds no metadata key (`WriteBatch.key_ne_of_typed`).
* After its flush, `Finalize` commits at the metadata timestamp a transaction that sees the
  pruned record when a root was dropped and the stored one otherwise, and the cleanup of a
  restore leaves what the root queries read (`finalizeCommit_reads`). When no root was
  dropped, the pruned record is the stored one, so in both cases the record left is the
  pruned one (`finalize_records`).
* The queries then read that record (`query_getRootsForVersion_of_record`, and `query_listed`
  of `Mkvs.Proofs.CommitRoots`), with the earliest version at or below `V` by the checks of
  `Finalize`.
-/

namespace Mkvs.Badger

variable {ns : Nat}

/-! ## The seeds are finalized -/

/-- The closure loop never unfinalizes a root. -/
theorem closureLoop_mono {roots : List (TypedHash × List TypedHash)} {sched : Sched}
    {x : TypedHash} : ∀ (fuel n : Nat) {F : List TypedHash}, x ∈ F →
      x ∈ closureLoop roots sched fuel n F
  | 0, _, _, hx => hx
  | fuel + 1, n, F, hx => by
    have hpass : x ∈ (closurePass roots (sched.pass n (roots.map (·.1))) F).1 := by
      rw [closurePass_eq]
      exact foldl_closeRoot_mono _ hx
    simp only [closureLoop]
    split
    · exact closureLoop_mono fuel (n + 1) hpass
    · exact hpass

theorem mem_finalizedRootsOf {roots : List (TypedHash × List TypedHash)} {sched : Sched}
    {seeds : List TypedHash} {x : TypedHash} (hx : x ∈ seeds) :
    x ∈ finalizedRootsOf roots sched seeds :=
  closureLoop_mono _ 0 hx

/-! ## What `Finalize` reads and writes -/

/-- A transaction that has not written `k` sees the store's version at its read timestamp. -/
theorem Txn.view_of_unwritten {tx : Txn} (st : Store) {k : Key}
    (h : ∀ p ∈ tx.pending, p.1 ≠ k) : tx.view st k = (st.get k tx.readTs).map Prod.snd := by
  rw [Txn.view, List.lookup_eq_none_iff.2 fun p hp => bne_iff_ne.2 (h p hp).symm]

/-- Pruning a roots map keeps every root it lists that passes the filter. -/
theorem isSome_lookup_filter {roots : List (TypedHash × List TypedHash)}
    {p : TypedHash → Bool} {th : TypedHash} (h : (roots.lookup th).isSome = true)
    (hp : p th = true) : ((roots.filter fun e => p e.1).lookup th).isSome = true := by
  obtain ⟨e, he, rfl⟩ := List.mem_map.1 (isSome_lookup_iff.1 h)
  exact isSome_lookup_iff.2 (List.mem_map_of_mem _ (List.mem_filter.2 ⟨he, hp⟩))

/-- A typed write batch writes no metadata key. -/
theorem WriteBatch.key_ne_of_typed {b : WriteBatch} (hb : b.typed ns = true) {e : Entry}
    (he : e ∈ b.writes) {k : Key} (hk : k.isMeta = true) : e.key ≠ k := by
  rintro rfl
  simpa [batchWrite, hk] using List.all_eq_true.1 hb e he

theorem spec_metaSave (d : Db) (tx : Txn) :
    Spec (·.db = d) (metaSave tx) fun tx' =>
      ∃ m, tx' = { tx with pending := (.metadata, some (.metadata m)) :: tx.pending } :=
  (spec_onDb d keeps_getDb).bind' fun _ => (spec_txnSet_eq d tx _ _).mono fun _ h => ⟨_, h⟩

/-- An update of the in-memory metadata, then `metadata.save` (`setLastFinalizedVersion` and
`setEarliestVersion`): the database is updated, and the transaction writes the metadata
record. -/
theorem modifyDb_metaSave_result {f : Db → Db} {tx tx' : Txn} {w w' : World}
    (h : (modifyDb f >>= fun _ => metaSave tx).exec w = (.ok tx', w')) :
    w'.db = f w.db ∧
      ∃ m, tx' = { tx with pending := (.metadata, some (.metadata m)) :: tx.pending } := by
  obtain ⟨_, w₁, h₁, h⟩ := exec_bind_ok h
  have hsave := spec_metaSave w₁.db tx w₁ rfl
  rw [h] at hsave
  rw [exec_modifyDb] at h₁
  cases h₁
  exact ⟨hsave.1, hsave.2 _ rfl⟩

/-- What `Finalize` leaves for the root queries after its flush: the versions set by
`Metadata.withLastFinalized v`, and the reads of the store with a transaction committed at
the metadata timestamp, which sees the pruned record of `v` when a root was dropped and,
otherwise, what the main loop's transaction saw. -/
theorem finalizeCommit_reads {v : Nat} {acc : FinalizeAcc} {w w' : World}
    (h : (finalizeCommit v acc).exec w = (.ok (), w')) :
    ∃ tx : Txn, tx.readTs = acc.tx.readTs ∧
      (∀ st, tx.view st (.rootsMetadata v) = if acc.rootsChanged
        then some (.rootsMetadata acc.roots) else acc.tx.view st (.rootsMetadata v)) ∧
      RootsView { w.db with
        meta := w.db.meta.withLastFinalized v
        store := w.db.store.commitAt tx tsMetadata } w'.db := by
  unfold finalizeCommit at h
  obtain ⟨tx₁, w₁, h₁, h⟩ := exec_bind_ok h
  obtain ⟨tx₂, w₂, h₂, h⟩ := exec_bind_ok h
  obtain ⟨_, w₃, h₃, h₄⟩ := exec_bind_ok h
  -- the roots metadata the transaction writes, if any
  have hsave : w₁.db = w.db ∧ tx₁.readTs = acc.tx.readTs ∧
      ∀ st, tx₁.view st (.rootsMetadata v) = if acc.rootsChanged
        then some (.rootsMetadata acc.roots) else acc.tx.view st (.rootsMetadata v) := by
    split at h₁
    · rename_i hch
      have hset := spec_txnSet_eq w.db acc.tx (.rootsMetadata v) (.rootsMetadata acc.roots) w rfl
      unfold RootsMetadata.save at h₁
      rw [h₁] at hset
      obtain rfl := hset.2 _ rfl
      exact ⟨hset.1, rfl, fun st => by rw [if_pos hch, Txn.view_cons_self]⟩
    · rename_i hch
      simp only [exec_pure, Prod.mk.injEq, Except.ok.injEq] at h₁
      obtain ⟨rfl, rfl⟩ := h₁
      exact ⟨rfl, rfl, fun st => by rw [if_neg hch]⟩
  obtain ⟨hw₁, hts, hview⟩ := hsave
  obtain ⟨hw₂, m, rfl⟩ := modifyDb_metaSave_result h₂
  have hrest : RootsView w₃.db w'.db := Keeps.rel_of_exec (F := Frame.rootsView)
    (keeps_getDb.bind fun _ => .ite (keeps_cleanMultipartLocked_rootsView false) (.pure' _)) h₄
  rw [txnCommitAt_ok h₃, hw₂, hw₁] at hrest
  exact ⟨{ tx₁ with pending := (.metadata, some (.metadata m)) :: tx₁.pending }, hts,
    fun st => by rw [Txn.view_cons_ne _ _ (show Key.metadata ≠ .rootsMetadata v from nofun)]
                 exact hview st, hrest⟩

/-! ## The record `Finalize` leaves -/

/-- The roots metadata of `v` that `loadRootsMetadata` loads from `d` at the metadata timestamp
is `roots`: the stored record, or an empty one where none is stored. -/
def Db.RootsRecordIs (d : Db) (v : Nat) (roots : List (TypedHash × List TypedHash)) : Prop :=
  (d.store.get (.rootsMetadata v) tsMetadata).map Prod.snd = some (.rootsMetadata roots) ∨
    (d.store.get (.rootsMetadata v) tsMetadata = none ∧ roots = [])

/-- At or above the earliest version, `GetRootsForVersion` lists the roots of the record. -/
theorem query_getRootsForVersion_of_record {s : Sys} {v : Nat}
    {roots : List (TypedHash × List TypedHash)} (he : s.db.meta.earliestVersion ≤ v)
    (hrec : s.db.RootsRecordIs v roots) :
    s.query (getRootsForVersion v) =
      .ok (roots.map fun e => ⟨s.db.ns, v, e.1.type, e.1.hash⟩) := by
  have hnlt : ¬v < s.db.meta.earliestVersion := Nat.not_lt.2 he
  rcases hrec with hl | ⟨hg, rfl⟩
  · rcases hg : s.db.store.get (.rootsMetadata v) tsMetadata with _ | ⟨t, val⟩ <;> rw [hg] at hl
    · cases hl
    obtain rfl : val = .rootsMetadata roots := Option.some.inj hl
    simp only [Sys.query, Sys.world, getRootsForVersion, loadRootsMetadata, exec_bind, exec_getDb,
      exec_ite, exec_pure, txnGet_new_exec, hg, hnlt, if_false]
  · simp only [Sys.query, Sys.world, getRootsForVersion, loadRootsMetadata, exec_bind, exec_getDb,
      exec_ite, exec_pure, txnGet_new_exec, hg, hnlt, if_false]

/-- After a successful `Finalize` from a typed open database, the last finalized version is
the version `V` of the roots, one the checks accepted, the earliest version is as
`Metadata.withLastFinalized V` sets it, and the namespace is unchanged. The record of `V` it
loaded, `rm`, is the one stored; every finalized root with a non-empty hash is in it; and the
record of `V` it leaves is `rm` with exactly its finalized roots. -/
theorem finalize_records {w w' : World} (hw : w.Ok ns) {sched : Sched}
    {roots : List Root} (h : (finalize sched roots).exec w = (.ok (), w')) {r : Root}
    (hr : r ∈ roots) :
    w'.db.ns = w.db.ns ∧
      w'.db.meta.earliestVersion = (w.db.meta.withLastFinalized r.version).earliestVersion ∧
      w'.db.meta.lastFinalizedVersion = some r.version ∧ FinalizeTarget w.db r.version ∧
      ∃ rm : RootsMetadata,
        (∀ x ∈ finalizedRootsOf rm.roots sched (roots.map TypedHash.fromRoot),
          x.hash.isEmpty = false → (rm.roots.lookup x).isSome = true) ∧
        w.db.RootsRecordIs r.version rm.roots ∧
        w'.db.RootsRecordIs r.version (rm.roots.filter fun e =>
          e.1 ∈ finalizedRootsOf rm.roots sched (roots.map TypedHash.fromRoot)) := by
  obtain ⟨⟨v₁, acc₁⟩, w₄, hf, hc⟩ := exec_bind_ok h
  obtain ⟨v, w₀, hck, hf⟩ := exec_bind_ok hf
  obtain ⟨acc, w₂, hb, hf⟩ := exec_bind_ok hf
  obtain ⟨_, w₁, hfl, hf⟩ := exec_bind_ok hf
  simp only [exec_pure, Prod.mk.injEq, Except.ok.injEq] at hf
  obtain ⟨⟨rfl, rfl⟩, rfl⟩ := hf
  obtain ⟨hw₀, -, htarget, hall⟩ := finalizeChecks_ok hck
  subst w₀
  obtain rfl := hall r hr
  obtain ⟨rm, _, hrm, hfound, hroots, hchanged, htx⟩ := finalizeBatch_ok hb
  have hmeta : tsMetadata ≤ versionToTs r.version := Nat.le_add_left 1 (r.version + 1)
  -- the record `Finalize` loaded is the stored one
  have hload := (spec_loadRootsMetadata_view w.db _ r.version w rfl).2 rm (by rw [hrm])
  rw [Txn.view_new, Store.get_meta hw.1.store (k := .rootsMetadata r.version) rfl hmeta] at hload
  have hbefore : w.db.RootsRecordIs r.version rm.roots :=
    hload.2.imp id fun h => ⟨Option.map_eq_none'.1 h.1, h.2⟩
  -- the flush adds the version batch, which writes no metadata key
  have hw₁ : w₁.db = { w.db with store := w.db.store.flush acc.versionBatch } := by
    rw [batchFlush_ok hfl, Keeps.rel_of_exec (F := Frame.db) (keeps_finalizeBatch _ _ _) hb]
  have hacc : acc.typed ns = true := (typedSpec_finalizeBatch sched roots _ w hw).2 acc (by rw [hb])
  have hvb : ∀ e ∈ acc.versionBatch.writes, e.key ≠ .rootsMetadata r.version :=
    fun e he => WriteBatch.key_ne_of_typed (Bool.and_eq_true _ _ ▸ hacc).1 he rfl
  have hreadTs : acc.tx.readTs = versionToTs r.version := by rw [htx]; rfl
  obtain ⟨tx, hts, hview, hns, he, hread⟩ := finalizeCommit_reads hc
  refine ⟨hns.trans (by rw [hw₁]), he.trans (by rw [hw₁]), (finalizeCommit_ok hc).2, htarget, rm,
    hfound, hbefore, ?_⟩
  have hafter : (w'.db.store.get (.rootsMetadata r.version) tsMetadata).map Prod.snd =
      if acc.rootsChanged then some (.rootsMetadata acc.roots)
      else acc.tx.view w.db.store (.rootsMetadata r.version) := by
    rw [hread, hw₁, Store.flush,
      get_rootsMetadata_commitAt hw.1.store hvb (hts ▸ hreadTs ▸ hmeta), hview]
  split at hafter
  · exact .inl (by rw [hafter, hroots])
  -- no root was dropped: the record is left as it was
  rename_i hch
  have hkeep : rm.roots.filter (fun e => e.1 ∈
      finalizedRootsOf rm.roots sched (roots.map TypedHash.fromRoot)) = rm.roots :=
    List.filter_eq_self.2 fun e he => by
      have := List.any_eq_false.1 (hchanged ▸ Bool.of_not_eq_true hch) e.1
        (List.mem_map_of_mem _ he)
      simpa using this
  rw [Txn.view_of_unwritten _ fun p hp => ?_, hreadTs,
    Store.get_meta hw.1.store (k := .rootsMetadata r.version) rfl hmeta] at hafter
  · rw [hkeep]
    exact hbefore.imp hafter.trans fun h => ⟨Option.map_eq_none'.1 (by rw [hafter, h.1]; rfl), h.2⟩
  · rw [htx] at hp
    obtain ⟨_, -, rfl⟩ := List.mem_map.1 (List.mem_reverse.1 hp)
    nofun

/-- After a successful `Finalize` on an open reachable database, `GetLatestVersion` returns the
version of the roots, and each given root of the database's namespace with a non-empty hash is
found by `HasRoot` and listed by `GetRootsForVersion`. -/
theorem finalize_keeps_seeds {cfg : Config} {s s' : Sys} (hs : Reachable cfg s)
    (ho : s.isOpen = true) {sched : Sched} {roots : List Root} {fault : Option Nat}
    (h : step s ⟨.finalize sched roots, fault⟩ = (.ok (), s')) {r : Root} (hr : r ∈ roots)
    (hns : r.ns = s.db.ns) (hne : r.hash.isEmpty = false) :
    s'.query getLatestVersion = .ok (some r.version) ∧ s'.query (hasRoot r) = .ok true ∧
      ∃ rs, s'.query (getRootsForVersion r.version) = .ok rs ∧ r ∈ rs := by
  have hc : ∀ cfg, Action.finalize sched roots ≠ .reopen cfg := fun _ => nofun
  obtain ⟨w', hx, hdb, -⟩ := exec_of_step hc h
  have hT := reachable_typed hs
  obtain ⟨hns', he, hlast, htarget, rm, hfound, -, hafter⟩ :=
    finalize_records ⟨hT.world_of fault, hT.meta ho⟩ hx hr
  rw [← hdb] at hns' he hlast hafter
  have hle : s'.db.meta.earliestVersion ≤ r.version :=
    he ▸ (hT.meta ho).2.2.earliest_withLastFinalized_le fun l hl => (htarget l hl).1
  -- the record `Finalize` leaves keeps the root: it is a seed, and the record it loaded has it
  have hfin : TypedHash.fromRoot r ∈
      finalizedRootsOf rm.roots sched (roots.map TypedHash.fromRoot) :=
    mem_finalizedRootsOf (List.mem_map_of_mem _ hr)
  have hkept := isSome_lookup_filter (p := fun th => decide (th ∈ _))
    (hfound _ hfin hne) (decide_eq_true hfin)
  have hl : listsRoot (TypedHash.fromRoot r)
      ((s'.db.store.get (.rootsMetadata r.version) tsMetadata).map Prod.snd) = true := by
    rcases hafter with hl | ⟨-, hnil⟩
    · rw [hl]
      exact hkept
    · rw [hnil] at hkept
      cases hkept
  exact ⟨by rw [← hlast]; rfl, query_listed (hns.trans hns'.symm) hle hl⟩

/-- A successful `Finalize` on an open reachable database keeps, in the record of the roots'
version, exactly the entries whose typed hash the closure loop finalizes from the given roots
over that record; `GetRootsForVersion` of the version lists the record's roots before the call
and the kept ones after it. -/
theorem finalize_prunes_roots {cfg : Config} {s s' : Sys} (hs : Reachable cfg s)
    (ho : s.isOpen = true) {sched : Sched} {roots : List Root} {fault : Option Nat}
    (h : step s ⟨.finalize sched roots, fault⟩ = (.ok (), s')) {r : Root} (hr : r ∈ roots) :
    ∃ record : List (TypedHash × List TypedHash), s.db.RootsRecordIs r.version record ∧
      s'.db.RootsRecordIs r.version (record.filter fun e =>
        e.1 ∈ finalizedRootsOf record sched (roots.map TypedHash.fromRoot)) ∧
      s.query (getRootsForVersion r.version) =
        .ok (record.map fun e => ⟨s.db.ns, r.version, e.1.type, e.1.hash⟩) ∧
      s'.query (getRootsForVersion r.version) =
        .ok ((record.filter fun e => e.1 ∈ finalizedRootsOf record sched
          (roots.map TypedHash.fromRoot)).map
            fun e => ⟨s.db.ns, r.version, e.1.type, e.1.hash⟩) := by
  have hc : ∀ cfg, Action.finalize sched roots ≠ .reopen cfg := fun _ => nofun
  obtain ⟨w', hx, hdb, -⟩ := exec_of_step hc h
  have hT := reachable_typed hs
  obtain ⟨hns', he, -, htarget, rm, -, hbefore, hafter⟩ :=
    finalize_records ⟨hT.world_of fault, hT.meta ho⟩ hx hr
  rw [← hdb] at hns' he hafter
  have hle : s.db.meta.earliestVersion ≤ r.version :=
    (hT.meta ho).2.2.earliest_le fun l hl => (htarget l hl).1
  refine ⟨rm.roots, hbefore, hafter, query_getRootsForVersion_of_record hle hbefore, ?_⟩
  have hle' : s'.db.meta.earliestVersion ≤ r.version :=
    he ▸ (hT.meta ho).2.2.earliest_withLastFinalized_le fun l hl => (htarget l hl).1
  rw [query_getRootsForVersion_of_record hle' hafter, hns']
  rfl

/-- Two roots committed at version 0, of which `Finalize` is given the first: the second is
dropped. -/
example : (run (Sys.fresh ⟨7, false, false⟩)
    (batchCalls 0 ⟨7, 0, .state, 0⟩ 0 false [.putNode (.leaf 1 10)] ++
      [⟨.commit 0 leafRoot, none⟩] ++
      batchCalls 1 ⟨7, 0, .state, 0⟩ 0 false [.putNode (.leaf 2 20)] ++
      [⟨.commit 1 ⟨7, 0, .state, (Node.leaf 2 20).getHash⟩, none⟩,
        ⟨.finalize .inOrder [leafRoot], none⟩])).2.query (getRootsForVersion 0) =
      .ok [leafRoot] := by
  decide

/-- The state after `Finalize` of the committed leaf root. -/
def leafFinalized : Sys := (step leafCommitted ⟨.finalize .inOrder [leafRoot], none⟩).2

theorem step_leafFinalized :
    step leafCommitted ⟨.finalize .inOrder [leafRoot], none⟩ = (.ok (), leafFinalized) :=
  Prod.ext (by decide) rfl

theorem finalize_keeps_seeds_leaf :
    (Reachable ⟨7, false, false⟩ leafCommitted ∧ leafCommitted.isOpen = true ∧
      step leafCommitted ⟨.finalize .inOrder [leafRoot], none⟩ = (.ok (), leafFinalized) ∧
      leafRoot ∈ [leafRoot] ∧ leafRoot.ns = leafCommitted.db.ns ∧
      leafRoot.hash.isEmpty = false) ∧
    leafFinalized.query getLatestVersion = .ok (some leafRoot.version) ∧
      leafFinalized.query (hasRoot leafRoot) = .ok true ∧
      ∃ rs, leafFinalized.query (getRootsForVersion leafRoot.version) = .ok rs ∧
        leafRoot ∈ rs :=
  ⟨⟨reachable_leafCommitted, by decide, step_leafFinalized, List.mem_singleton_self _,
      by decide, by decide⟩,
    finalize_keeps_seeds reachable_leafCommitted (by decide) step_leafFinalized
      (List.mem_singleton_self _) (by decide) (by decide)⟩

theorem finalize_prunes_roots_leaf :
    (Reachable ⟨7, false, false⟩ leafCommitted ∧ leafCommitted.isOpen = true ∧
      step leafCommitted ⟨.finalize .inOrder [leafRoot], none⟩ = (.ok (), leafFinalized) ∧
      leafRoot ∈ [leafRoot]) ∧
    ∃ record : List (TypedHash × List TypedHash),
      leafCommitted.db.RootsRecordIs leafRoot.version record ∧
      leafFinalized.db.RootsRecordIs leafRoot.version (record.filter fun e =>
        e.1 ∈ finalizedRootsOf record .inOrder ([leafRoot].map TypedHash.fromRoot)) ∧
      leafCommitted.query (getRootsForVersion leafRoot.version) =
        .ok (record.map fun e => ⟨leafCommitted.db.ns, leafRoot.version, e.1.type, e.1.hash⟩) ∧
      leafFinalized.query (getRootsForVersion leafRoot.version) =
        .ok ((record.filter fun e => e.1 ∈ finalizedRootsOf record .inOrder
          ([leafRoot].map TypedHash.fromRoot)).map
            fun e => ⟨leafCommitted.db.ns, leafRoot.version, e.1.type, e.1.hash⟩) :=
  ⟨⟨reachable_leafCommitted, by decide, step_leafFinalized, List.mem_singleton_self _⟩,
    finalize_prunes_roots reachable_leafCommitted (by decide) step_leafFinalized
      (List.mem_singleton_self _)⟩

end Mkvs.Badger
