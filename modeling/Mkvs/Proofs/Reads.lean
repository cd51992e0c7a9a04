import Mkvs.Proofs.TypedRuns

/-!
# What a reachable database answers

A typed store holds at each key only a value of the key's format, so a read never meets a
value of the wrong kind. Over every state a run reaches (`reachable_typed`) this means:
`GetNode` returns the node whose hash it was asked for and never reports a corrupt value;
with a working backing store `HasRoot` never panics and `GetRootsForVersion` always answers;
the metadata in memory and in the store is of the current format and of the database's
namespace; and the database reopens under its own namespace, and under no other.
-/

namespace Mkvs.Badger

variable {ns : Nat}

/-! ## Reads of a typed store -/

theorem tick_error {w w' : World} {e : Error} (h : tick.exec w = (.error e, w')) :
    e = .storage := by
  obtain ⟨db, b, _ | _ | n⟩ := w <;> cases h
  rfl

/-- A fresh transaction fails only on a failing backing-store step. -/
theorem txnGet_new_error {ts : Nat} {k : Key} {w w' : World} {e : Error}
    (h : (txnGet (Txn.new ts) k).exec w = (.error e, w')) : e = .storage := by
  unfold txnGet at h
  simp only [Txn.new, exec_bind, exec_ite, exec_throw, exec_pure, Bool.false_eq_true,
    if_false] at h
  rcases htk : tick.exec w with ⟨_ | _, w₁⟩ <;> rw [htk] at h
  · simp only [Prod.mk.injEq, Except.error.injEq] at h
    exact h.1 ▸ tick_error htk
  · simp [List.lookup_nil, exec_bind, Except.map] at h

/-- A fresh transaction's read either fails on a failing store step or reads the store. -/
theorem txnGet_new_cases (ts : Nat) (k : Key) (w : World) :
    (∃ w', (txnGet (Txn.new ts) k).exec w = (.error .storage, w')) ∨
      ∃ w', (txnGet (Txn.new ts) k).exec w = (.ok (w.db.store.get k ts), w') ∧
        Frame.world.rel w w' := by
  rcases h : (txnGet (Txn.new ts) k).exec w with ⟨e | r, w'⟩
  · exact .inl ⟨w', txnGet_new_error h ▸ rfl⟩
  · obtain ⟨rfl, hrel⟩ := txnGet_new_ok h
    exact .inr ⟨w', rfl, hrel⟩

/-- `GetNode` over a typed store, whatever the backing store does: it returns the node whose
hash it was asked for, or reports a bad namespace, a missing node or root, or a failing store
step. The `Corrupt` branch is never taken. -/
theorem getNode_typed {w : World} (hw : w.Typed ns) (root : Root) (h : Hash) :
    (∃ n, ((getNode root h).exec w).1 = .ok n ∧ n.getHash = h) ∨
      ∃ e, ((getNode root h).exec w).1 = .error e ∧
        e ∈ [Error.badNamespace, .nodeNotFound, .rootNotFound, .storage] := by
  unfold getNode sanityCheckNamespace checkRoot
  simp only [exec_bind, exec_getDb, exec_ite, exec_throw, exec_pure]
  split_ifs with hns
  · simp
  rcases Nat.lt_or_ge root.version w.db.meta.earliestVersion with hv | hv
  · simp [hv]
  simp only [hv.not_lt, if_false]
  rcases txnGet_new_cases (versionToTs root.version) (.rootNode (TypedHash.fromRoot root)) w with
    ⟨w₁, h₁⟩ | ⟨w₁, h₁, hrel⟩ <;> simp only [h₁]
  · simp
  split_ifs
  · simp
  rcases txnGet_new_cases (versionToTs root.version) (.node h) w₁ with
    ⟨w₂, h₂⟩ | ⟨w₂, h₂, -⟩ <;> simp only [h₂]
  · simp
  rw [hrel.1]
  rcases hg : w.db.store.get (.node h) (versionToTs root.version) with _ | ⟨t, v⟩
  · simp
  have hadm := Store.admits_of_get hw.store hg
  cases v <;> simp_all [Key.admits]

/-! ## A working backing store

With no failing step, a fresh transaction reads the store and writes nothing, and a write
batch is a value until it is flushed, so the runs below are computed outright. -/

section Working

variable (db : Db) (bs : Nat → Batch)

theorem batchWriteAt_working {b : WriteBatch} (hb : b.finished = false) (k : Key)
    (v : Option Value) (ts : Nat) :
    (batchWriteAt b k v ts).exec ⟨db, bs, none⟩ =
      (.ok { b with writes := ⟨k, ts, v⟩ :: b.writes }, ⟨db, bs, none⟩) := by
  simp only [batchWriteAt, hb, Bool.false_eq_true, if_false, exec_bind, exec_pure]
  rfl

theorem cleanLogEntry_working (removeNodes : Bool) {b : WriteBatch} (hb : b.finished = false)
    {key : Key} (hk : multipartLogPrefix key = true) :
    ∃ b', (cleanLogEntry removeNodes b key).exec ⟨db, bs, none⟩ = (.ok b', ⟨db, bs, none⟩) ∧
      b'.finished = false := by
  cases key <;> cases hk
  unfold cleanLogEntry batchDelete batchDeleteAt
  cases removeNodes <;> simp only [exec_bind, exec_ite, exec_pure, Bool.false_eq_true, if_false, if_true]
  · exact ⟨_, batchWriteAt_working _ _ hb _ _ _, hb⟩
  · split_ifs <;> simp only [batchWriteAt_working, hb] <;> exact ⟨_, rfl, rfl⟩

/-- The cleanup loop never panics on the keys of the restore log. -/
theorem cleanLogEntries_working (removeNodes : Bool) {keys : List Key}
    (hk : ∀ k ∈ keys, multipartLogPrefix k = true) {b : WriteBatch} (hb : b.finished = false) :
    ∃ b', (cleanLogEntries removeNodes b keys).exec ⟨db, bs, none⟩ = (.ok b', ⟨db, bs, none⟩) ∧
      b'.finished = false := by
  induction keys generalizing b with
  | nil => exact ⟨b, rfl, hb⟩
  | cons key keys ih =>
    obtain ⟨b₁, h₁, hb₁⟩ := cleanLogEntry_working db bs removeNodes hb (hk key (List.mem_cons_self _ _))
    obtain ⟨b₂, h₂, hb₂⟩ := ih (fun k hk' => hk k (List.mem_cons_of_mem _ hk')) hb₁
    refine ⟨b₂, ?_, hb₂⟩
    rw [cleanLogEntries, exec_bind, h₁]
    exact h₂

theorem batchFlush_working {b : WriteBatch} (hb : b.finished = false) :
    (batchFlush b).exec ⟨db, bs, none⟩ =
      (.ok { b with finished := true }, ⟨{ db with store := db.store.flush b }, bs, none⟩) := by
  simp only [batchFlush, hb, Bool.false_eq_true, if_false, exec_bind, exec_pure]
  rfl

/-- The cleanup of a restore always succeeds with a working store. -/
theorem cleanMultipartLocked_working (removeNodes : Bool) :
    ∃ w', (cleanMultipartLocked removeNodes).exec ⟨db, bs, none⟩ = (.ok (), w') := by
  unfold cleanMultipartLocked
  simp only [exec_bind, exec_getDb, exec_ite, exec_pure]
  have hscan : (txnScan (Txn.new tsMetadata) multipartLogPrefix).exec ⟨db, bs, none⟩ =
      (.ok (db.store.scan multipartLogPrefix tsMetadata), ⟨db, bs, none⟩) := rfl
  split_ifs <;> try exact ⟨_, rfl⟩
  all_goals
    obtain ⟨b, hb, hfin⟩ := cleanLogEntries_working db bs removeNodes
      (fun _ hk => (Store.mem_scan.1 hk).1) (b := WriteBatch.new _) rfl
    rw [hscan]
    dsimp only
    rw [hb]
    simp only [batchFlush_working db bs hfin]
    exact ⟨_, rfl⟩

/-- A typed store's roots metadata always loads. -/
theorem loadRootsMetadata_working (hs : ∀ e ∈ db.store.entries, e.typed ns = true)
    (ts version : Nat) :
    ∃ rm, (loadRootsMetadata (Txn.new ts) version).exec ⟨db, bs, none⟩ =
      (.ok rm, ⟨db, bs, none⟩) := by
  unfold loadRootsMetadata
  rw [exec_bind, txnGet_new_exec rfl]
  rcases hg : db.store.get (.rootsMetadata version) ts with _ | ⟨t, v⟩
  · exact ⟨_, rfl⟩
  · have := Store.admits_of_get hs hg
    cases v <;> first | exact ⟨_, rfl⟩ | simp [Key.admits] at this

theorem hasRoot_working (hs : ∀ e ∈ db.store.entries, e.typed ns = true) (root : Root) :
    ∃ b, ((hasRoot root).exec ⟨db, bs, none⟩).1 = .ok b := by
  obtain ⟨rm, hrm⟩ := loadRootsMetadata_working db bs hs tsMetadata root.version
  unfold hasRoot
  simp only [exec_bind, exec_getDb, exec_ite, exec_pure, exec_tryCatch, hrm]
  split_ifs <;> exact ⟨_, rfl⟩

theorem getRootsForVersion_working (hs : ∀ e ∈ db.store.entries, e.typed ns = true)
    (version : Nat) : ∃ roots, ((getRootsForVersion version).exec ⟨db, bs, none⟩).1 = .ok roots := by
  obtain ⟨rm, hrm⟩ := loadRootsMetadata_working db bs hs tsMetadata version
  unfold getRootsForVersion
  simp only [exec_bind, exec_getDb, exec_ite, exec_pure, hrm]
  split_ifs <;> exact ⟨_, rfl⟩

/-- `load` succeeds on a typed store that holds a metadata record, for a handle of the
stored namespace. -/
theorem load_working (hs : ∀ e ∈ db.store.entries, e.typed ns = true)
    (hst : ∃ e ∈ db.store.entries, e.key = .metadata ∧ e.ts ≤ tsMetadata) (hns : db.ns = ns) :
    ∃ m, load.exec ⟨db, bs, none⟩ = (.ok (), ⟨{ db with meta := m }, bs, none⟩) := by
  obtain ⟨t, m, hget, hmv, hmns⟩ := Store.get_metadata hs hst
  refine ⟨m, ?_⟩
  unfold load
  simp only [exec_bind, exec_tryCatch, txnGet_new_exec, Store.get_migrationMeta hs, hget,
    Option.isSome_none, Bool.false_eq_true, if_false, exec_pure, exec_modifyDb, exec_getDb,
    exec_ite, exec_throw, hmv, hmns, hns, ne_eq, not_true_eq_false]

theorem new_working (cfg : Config) (hs : ∀ e ∈ db.store.entries, e.typed ns = true)
    (hst : ∃ e ∈ db.store.entries, e.key = .metadata ∧ e.ts ≤ tsMetadata) (hns : cfg.ns = ns) :
    ∃ w', (new cfg).exec ⟨db, bs, none⟩ = (.ok (), w') := by
  obtain ⟨m, hm⟩ := load_working ⟨cfg.ns, cfg.readOnly, cfg.discardWriteLogs,
    multipartVersionNone, ⟨0, 0, 0, none, 0⟩, db.store⟩ bs hs hst hns
  obtain ⟨w', h'⟩ := cleanMultipartLocked_working { (⟨cfg.ns, cfg.readOnly,
    cfg.discardWriteLogs, multipartVersionNone, ⟨0, 0, 0, none, 0⟩, db.store⟩ : Db) with meta := m }
    bs true
  refine ⟨w', ?_⟩
  unfold new
  simp only [exec_bind, exec_modifyDb]
  rw [hm]
  exact h'

end Working

/-! ## In every reachable state -/

section Reachable

variable {cfg : Config} {s : Sys}

/-- In every state a run reaches, whatever the backing store does, `GetNode` returns the node
whose hash it was asked for, or reports a bad namespace, a missing node or root, or a failing
store step; it never reports a corrupt value. -/
theorem getNode_reachable (hs : Reachable cfg s) (fault : Option Nat) (root : Root) (h : Hash) :
    (∃ n, ((getNode root h).exec (s.world fault)).1 = .ok n ∧ n.getHash = h) ∨
      ∃ e, ((getNode root h).exec (s.world fault)).1 = .error e ∧
        e ∈ [Error.badNamespace, .nodeNotFound, .rootNotFound, .storage] :=
  getNode_typed ((reachable_typed hs).world_of fault) root h

/-- The state after a first batch puts one leaf and commits `leafRoot` at version 0. -/
def leafCommitted : Sys :=
  (step (run (Sys.fresh ⟨7, false, false⟩)
    (batchCalls 0 ⟨7, 0, .state, 0⟩ 0 false [.putNode (.leaf 1 10)])).2 ⟨.commit 0 leafRoot, none⟩).2

theorem reachable_leafCommitted : Reachable ⟨7, false, false⟩ leafCommitted :=
  .step _ (.step _ (.step _ .fresh ⟨by decide, by decide⟩ (.inl (by decide))) trivial
    (.inl (by decide))) (show 0 < 2 ^ 64 by decide) (.inl (by decide))

theorem getNode_reachable_leaf :
    Reachable ⟨7, false, false⟩ leafCommitted ∧
      ((getNode leafRoot (Node.leaf 1 10).getHash).exec (leafCommitted.world none)).1 =
        .ok (.leaf 1 10) ∧
      ((∃ n, ((getNode leafRoot (Node.leaf 1 10).getHash).exec (leafCommitted.world none)).1 =
          .ok n ∧ n.getHash = (Node.leaf 1 10).getHash) ∨
        ∃ e, ((getNode leafRoot (Node.leaf 1 10).getHash).exec (leafCommitted.world none)).1 =
          .error e ∧ e ∈ [Error.badNamespace, .nodeNotFound, .rootNotFound, .storage]) :=
  ⟨reachable_leafCommitted, by decide, getNode_reachable reachable_leafCommitted none leafRoot _⟩

/-- With a working backing store, `HasRoot` answers in every state a run reaches: its panic
on a failed load of the roots metadata is never taken. -/
theorem hasRoot_reachable (hs : Reachable cfg s) (root : Root) :
    ∃ b, s.query (hasRoot root) = .ok b :=
  hasRoot_working s.db s.batches (reachable_typed hs).world.store root

theorem hasRoot_reachable_leaf :
    Reachable ⟨7, false, false⟩ leafCommitted ∧ leafCommitted.query (hasRoot leafRoot) = .ok true ∧
      ∃ b, leafCommitted.query (hasRoot leafRoot) = .ok b :=
  ⟨reachable_leafCommitted, by decide, hasRoot_reachable reachable_leafCommitted leafRoot⟩

/-- With a working backing store, `GetRootsForVersion` answers in every state a run reaches. -/
theorem getRootsForVersion_reachable (hs : Reachable cfg s) (version : Nat) :
    ∃ roots, s.query (getRootsForVersion version) = .ok roots :=
  getRootsForVersion_working s.db s.batches (reachable_typed hs).world.store version

theorem getRootsForVersion_reachable_leaf :
    Reachable ⟨7, false, false⟩ leafCommitted ∧
      leafCommitted.query (getRootsForVersion 0) = .ok [leafRoot] ∧
      ∃ roots, leafCommitted.query (getRootsForVersion 0) = .ok roots :=
  ⟨reachable_leafCommitted, by decide, getRootsForVersion_reachable reachable_leafCommitted 0⟩

/-- While the database is open, its metadata in memory is of the current format and of the
namespace it was created with, and keeps the bounds on its two versions: across every
`New` too, which loads the stored record. -/
theorem open_meta_current (hs : Reachable cfg s) (ho : s.isOpen = true) :
    s.db.meta.version = dbVersion ∧ s.db.meta.ns = cfg.ns ∧ VersionBounds s.db.meta :=
  (reachable_typed hs).meta ho

theorem open_meta_current_leaf :
    Reachable ⟨7, false, false⟩ leafCommitted ∧ leafCommitted.isOpen = true ∧
      leafCommitted.db.meta.version = dbVersion ∧ leafCommitted.db.meta.ns = 7 ∧
      VersionBounds leafCommitted.db.meta :=
  ⟨reachable_leafCommitted, rfl, open_meta_current reachable_leafCommitted rfl⟩

/-- The store always holds a metadata record of the current format and of the database's
namespace that keeps the version bounds, and a read at the metadata timestamp sees it. -/
theorem stored_meta_current (hs : Reachable cfg s) :
    ∃ ts m, s.db.store.get .metadata tsMetadata = some (ts, .metadata m) ∧
      m.version = dbVersion ∧ m.ns = cfg.ns ∧ VersionBounds m :=
  Store.get_metadata (reachable_typed hs).world.store (reachable_typed hs).world.stored

theorem stored_meta_current_leaf :
    Reachable ⟨7, false, false⟩ leafCommitted ∧
      ∃ ts m, leafCommitted.db.store.get .metadata tsMetadata = some (ts, .metadata m) ∧
        m.version = dbVersion ∧ m.ns = 7 ∧ VersionBounds m :=
  ⟨reachable_leafCommitted, stored_meta_current reachable_leafCommitted⟩

/-- A database a run has reached reopens under its own namespace, with any other settings,
whenever the backing store does not fail: no call leaves a store that `New` refuses. -/
theorem reopen_succeeds (hs : Reachable cfg s) {cfg' : Config} (hns : cfg'.ns = cfg.ns) :
    (step s ⟨.reopen cfg', none⟩).1 = .ok () := by
  have hT := (reachable_typed hs).world
  obtain ⟨w', h⟩ := new_working s.db (fun _ => Batch.closed) cfg' hT.store hT.stored hns
  show ((new cfg').exec ⟨s.db, fun _ => Batch.closed, none⟩).1 = _
  rw [h]

theorem reopen_succeeds_leaf :
    Reachable ⟨7, false, false⟩ leafCommitted ∧ (7 : Nat) = 7 ∧
      (step leafCommitted ⟨.reopen ⟨7, true, true⟩, none⟩).1 = .ok () :=
  ⟨reachable_leafCommitted, rfl, reopen_succeeds reachable_leafCommitted rfl⟩

/-- Whatever the backing store does, a database a run has reached opens only under its own
namespace. -/
theorem reopen_namespace (hs : Reachable cfg s) {cfg' : Config} {fault : Option Nat}
    (h : (step s ⟨.reopen cfg', fault⟩).1 = .ok ()) : cfg'.ns = cfg.ns := by
  have hT := (reachable_typed hs).world
  exact ((new_typed cfg' (w := ⟨s.db, fun _ => Batch.closed, fault⟩)
    ⟨hT.store, hT.stored, fun _ => Batch.typed_closed⟩).2 h).2

theorem reopen_namespace_leaf :
    Reachable ⟨7, false, false⟩ leafCommitted ∧
      (step leafCommitted ⟨.reopen ⟨7, true, false⟩, none⟩).1 = .ok () ∧ (7 : Nat) = 7 := by
  have h : (step leafCommitted ⟨.reopen ⟨7, true, false⟩, none⟩).1 = .ok () := by decide
  exact ⟨reachable_leafCommitted, h, reopen_namespace reachable_leafCommitted h⟩

example : (step leafCommitted ⟨.reopen ⟨8, false, false⟩, none⟩).1 = .error .incompatibleNamespace := by
  decide

end Reachable

end Mkvs.Badger
