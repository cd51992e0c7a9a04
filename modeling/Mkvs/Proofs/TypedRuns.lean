import Mkvs.Proofs.Typing

/-!
# Every call keeps the store typed

Each operation of an open database meets `TypedSpec`: it keeps every version of the store
and of the handles typed, and the write batches and transactions it builds are typed, so
that what it flushes and commits is. `New` is the one call that starts from a closed
handle: from a typed store it leaves a typed store, and an open handle with the stored
metadata when it succeeds. Every state a run reaches is therefore typed
(`reachable_typed`).

What that buys a reader of the store is in `Mkvs.Proofs.Reads`.
-/

namespace Mkvs.Badger

variable {α β : Type} {ns : Nat}

/-! ## Batch operations -/

theorem typedSpec_newBatch (id : Nat) (oldRoot : Root) (version : Nat) (chunk : Bool) :
    TypedSpec ns (newBatch id oldRoot version chunk) fun _ => True := by
  unfold newBatch
  dsimp only
  repeat' with_reducible first
    | exact Spec.pure' trivial | exact Spec.throw' _ | exact TypedSpec.of_keeps keeps_getDb
    | refine typedSpec_setBatch _ ?_
    | refine Spec.bind' ?_ fun _ => ?_
    | refine Spec.ite ?_ ?_
  exact Batch.typed_mk rfl fun _ h => by split at h <;> cases h; rfl

theorem typedSpec_putNode (id : Nat) (n : Node) :
    TypedSpec ns (Batch.putNode id n) fun _ => True := by
  unfold Batch.putNode
  dsimp only
  repeat' with_reducible first
    | exact Spec.pure' trivial | exact Spec.throw' _
    | exact (TypedSpec.of_keeps (keeps_txnGet _ _)).map _
    | refine typedSpec_setBatch _ ?_
    | refine (typedSpec_getBatch _).bind fun _ _ => ?_
    | refine (typedSpec_batchSet ?_ ?_).bind fun _ _ => ?_
    | refine Spec.tryCatch ?_ fun _ => ?_
    | refine Spec.bind' ?_ fun _ => ?_
    | refine Spec.ite ?_ ?_
    | split
  all_goals simp_all [Batch.typed, batchWrite, typedWrite, Key.admits, Key.isMeta]

theorem typedSpec_removeNodes (id : Nat) (hs : List Hash) :
    TypedSpec ns (Batch.removeNodes id hs) fun _ => True := by
  unfold Batch.removeNodes
  dsimp only
  repeat' with_reducible first
    | exact Spec.pure' trivial | exact Spec.throw' _
    | refine typedSpec_setBatch _ ?_
    | refine (typedSpec_getBatch _).bind fun _ _ => ?_
    | refine Spec.bind' ?_ fun _ => ?_
    | refine Spec.ite ?_ ?_
  all_goals assumption

theorem typedSpec_putWriteLog (id : Nat) (wl : Option WriteLog) (ann : Option Annotations) :
    TypedSpec ns (Batch.putWriteLog id wl ann) fun _ => True := by
  unfold Batch.putWriteLog
  dsimp only
  repeat' with_reducible first
    | exact Spec.pure' trivial | exact Spec.throw' _ | exact TypedSpec.of_keeps keeps_getDb
    | refine typedSpec_setBatch _ ?_
    | refine (typedSpec_getBatch _).bind fun _ _ => ?_
    | refine Spec.bind' ?_ fun _ => ?_
    | refine Spec.ite ?_ ?_
  all_goals assumption

theorem typedSpec_reset (id : Nat) : TypedSpec ns (Batch.reset id) fun _ => True :=
  (typedSpec_getBatch id).bind fun ba hba => typedSpec_setBatch id (Batch.typed_mk rfl fun mn h => by
    obtain ⟨mn', hmn', rfl⟩ := Option.map_eq_some'.1 h
    rfl)

/-! ## Commit -/

theorem typedSpec_linkOldRoot (oldRoot : Root) (rootHash : TypedHash) (version : Nat) {tx : Txn}
    (htx : tx.typed ns = true) :
    TypedSpec ns (Batch.linkOldRoot oldRoot rootHash version tx) (·.typed ns = true) := by
  unfold Batch.linkOldRoot
  dsimp only
  refine (TypedSpec.of_keeps keeps_getDb).bind' fun _ => Spec.ite_throw ?_
  refine (TypedSpec.of_keeps (keeps_loadRootsMetadata _ _)).bind' fun _ => ?_
  split
  · exact Spec.throw' _
  · exact typedSpec_save _ htx

theorem typedSpec_registerRoot (id : Nat) (rootHash : TypedHash) :
    TypedSpec ns (Batch.registerRoot id rootHash) fun _ => True := by
  unfold Batch.registerRoot
  refine (typedSpec_getBatch _).bind fun ba hba => ?_
  refine (typedSpec_batchSet (Batch.typed_bat hba) (by rfl)).bind fun _ hb => ?_
  refine (typedSpec_setBatch _ (Batch.typed_with_bat hba hb)).bind' fun _ => ?_
  split
  · rename_i hmn
    refine (typedSpec_batchSet (Batch.typed_log hba hmn) (by rfl)).bind fun _ hmn' => ?_
    exact (typedSpec_getBatch _).bind fun _ h => typedSpec_setBatch _ (Batch.typed_with_log h hmn')
  · exact Spec.pure' trivial

theorem typedSpec_commitLinks (id : Nat) (root : Root) (rootHash : TypedHash) {tx : Txn}
    (htx : tx.typed ns = true) :
    TypedSpec ns (Batch.commitLinks id root rootHash tx) (·.typed ns = true) := by
  unfold Batch.commitLinks
  dsimp only
  refine (typedSpec_getBatch _).bind fun ba hba => ?_
  repeat' with_reducible first
    | exact typedSpec_linkOldRoot _ _ _ htx | exact Spec.pure' ‹_›
    | refine (typedSpec_txnSet ‹_› ?_).bind fun _ h => ?_
    | refine (typedSpec_batchSet (Batch.typed_bat hba) ?_).bind fun _ h =>
        (typedSpec_setBatch _ (Batch.typed_with_bat hba h)).bind' fun _ => ?_
    | refine Spec.bind (Q := fun t : Txn => t.typed ns = true) ?_ fun _ _ => ?_
    | refine Spec.bind' (Spec.pure' trivial) fun _ => ?_
    | refine Spec.ite ?_ ?_
    | split
  all_goals rfl

theorem typedSpec_commitFlush (id : Nat) {tx : Txn} (htx : tx.typed ns = true) :
    TypedSpec ns (Batch.commitFlush id tx) fun _ => True := by
  unfold Batch.commitFlush
  dsimp only
  repeat' with_reducible first
    | refine (typedSpec_getBatch _).bind fun _ _ => ?_
    | refine (typedSpec_batchFlush ?_).bind fun _ _ => ?_
    | refine (typedSpec_txnCommitAt htx).bind' fun _ => ?_
    | refine Spec.bind' (Spec.pure' trivial) fun _ => ?_
    | refine typedSpec_setBatch _ ?_
    | refine (typedSpec_setBatch _ ?_).bind' fun _ => ?_
    | split
  all_goals first
    | assumption | exact Batch.typed_bat ‹_› | exact Batch.typed_log ‹_› ‹_›
    | exact Batch.typed_with_bat ‹_› ‹_› | exact Batch.typed_with_log ‹_› ‹_›

theorem typedSpec_commit (id : Nat) (root : Root) :
    TypedSpec ns (Batch.commit id root) fun _ => True := by
  unfold Batch.commit
  dsimp only
  repeat' with_reducible first
    | exact typedSpec_reset _
    | refine (typedSpec_getBatch _).bind fun _ _ => ?_
    | refine (TypedSpec.of_keeps (keeps_commitChecks _ _)).bind' fun _ => ?_
    | refine (TypedSpec.of_keeps (keeps_loadRootsMetadata _ _)).bind' fun _ => ?_
    | refine (typedSpec_registerRoot _ _).bind' fun _ => ?_
    | refine Spec.bind (Q := fun tx : Txn => tx.typed ns = true) ?_ fun _ _ => ?_
    | refine Spec.pure' ?_ | refine typedSpec_save _ ?_ | refine typedSpec_txnSet ?_ ?_
    | refine typedSpec_commitLinks _ _ _ ?_ | refine typedSpec_commitFlush _ ?_
    | refine Spec.ite ?_ ?_
  all_goals first | rfl | assumption

/-! ## Restores -/

/-- A batch may delete every key of the restore log. -/
theorem batchWrite_of_multipartLogPrefix {k : Key} (h : multipartLogPrefix k = true) :
    batchWrite ns k none = true := by
  cases k <;> first | rfl | cases h

/-- A batch may delete every write log. -/
theorem batchWrite_of_writeLogPrefix {version : Nat} {newRoot : TypedHash} {k : Key}
    (h : writeLogPrefix version newRoot k = true) : batchWrite ns k none = true := by
  cases k <;> first | rfl | cases h

theorem batchWrite_of_writeLogVersionPrefix {version : Nat} {k : Key}
    (h : writeLogVersionPrefix version k = true) : batchWrite ns k none = true := by
  cases k <;> first | rfl | cases h

theorem typedSpec_cleanLogEntry (removeNodes : Bool) {b : WriteBatch} (hb : b.typed ns = true)
    {key : Key} (hkey : multipartLogPrefix key = true) :
    TypedSpec ns (cleanLogEntry removeNodes b key) (·.typed ns = true) := by
  unfold cleanLogEntry
  refine Spec.bind (Q := fun b : WriteBatch => b.typed ns = true) ?_ fun _ h =>
    typedSpec_batchDeleteAt h (batchWrite_of_multipartLogPrefix hkey) _
  refine Spec.ite ?_ (Spec.pure' hb)
  split
  · exact Spec.ite (typedSpec_batchDelete hb rfl) (typedSpec_batchDelete hb rfl)
  · exact Spec.throw' _

theorem typedSpec_cleanLogEntries (removeNodes : Bool) :
    ∀ {b : WriteBatch} (_ : b.typed ns = true) {keys : List Key}
      (_ : ∀ k ∈ keys, multipartLogPrefix k = true),
      TypedSpec ns (cleanLogEntries removeNodes b keys) (·.typed ns = true)
  | _, hb, [], _ => Spec.pure' hb
  | _, hb, _ :: _, hkeys =>
    (typedSpec_cleanLogEntry removeNodes hb (hkeys _ (.head _))).bind fun _ hb' =>
      typedSpec_cleanLogEntries removeNodes hb' fun k hk => hkeys k (.tail _ hk)

/-- `setMultipartVersion` changes the in-memory record in place, and saves it. -/
theorem typedSpec_setMultipartVersion {tx : Txn} (htx : tx.typed ns = true) (version : Nat) :
    TypedSpec ns (setMultipartVersion tx version) (·.typed ns = true) := by
  unfold setMultipartVersion
  refine (typedSpec_modifyDb ?_ ?_).bind' fun _ => typedSpec_metaSave htx
  exacts [fun _ => rfl, fun _ h => ⟨h.1, h.2.1, (versionBounds_of_keeps h.2.2 (by rfl) (by rfl)).1⟩]

/-- The other two setters move a version, so they keep the bounds only where the checks of
`Prune` and `Finalize` have passed: `setEarliestVersion` moves the earliest version from
`v`, below the last finalized one, to `v + 1`. -/
theorem setEarliestVersion_ok {tx : Txn} (htx : tx.typed ns = true) {v l : Nat} {w : World}
    (hw : w.Ok ns) (hv : v = w.db.meta.earliestVersion)
    (hls : w.db.meta.lastFinalizedVersion = some l) (hlt : v < l) :
    ((setEarliestVersion tx ((v + 1) % 2 ^ 64)).exec w).2.Ok ns ∧
      ∀ tx', ((setEarliestVersion tx ((v + 1) % 2 ^ 64)).exec w).1 = .ok tx' →
        tx'.typed ns = true := by
  unfold setEarliestVersion
  rw [exec_bind, exec_modifyDb]
  exact typedSpec_metaSave htx _ ⟨⟨hw.1.store, hw.1.stored, hw.1.handles⟩, hw.2.1, hw.2.2.1,
    (versionBounds_of_earliestTo hw.2.2.2 hv hls hlt (by rfl) (by rfl)).1⟩

/-- `setLastFinalizedVersion` sets the last finalized version to a 64-bit `v` above it. -/
theorem setLastFinalizedVersion_ok {tx : Txn} (htx : tx.typed ns = true) {v : Nat} {w : World}
    (hw : w.Ok ns) (hv : v < 2 ^ 64) (ht : ∀ l, w.db.meta.lastFinalizedVersion = some l → l < v) :
    ((setLastFinalizedVersion tx v).exec w).2.Ok ns ∧
      ∀ tx', ((setLastFinalizedVersion tx v).exec w).1 = .ok tx' → tx'.typed ns = true := by
  unfold setLastFinalizedVersion
  rw [exec_bind, exec_modifyDb]
  exact typedSpec_metaSave htx _ ⟨⟨hw.1.store, hw.1.stored, hw.1.handles⟩, hw.2.1, hw.2.2.1,
    (versionBounds_of_lastTo hw.2.2.2 hv ht (by rfl) (by rfl)).1⟩

theorem typedSpec_cleanMultipartLocked (removeNodes : Bool) :
    TypedSpec ns (cleanMultipartLocked removeNodes) fun _ => True := by
  unfold cleanMultipartLocked
  dsimp only
  repeat' with_reducible first
    | exact Spec.pure' trivial | exact TypedSpec.of_keeps keeps_getDb
    | refine (typedSpec_txnScan _ _).bind fun _ h => ?_
    | refine (typedSpec_cleanLogEntries _ (WriteBatch.typed_new _) h).bind fun _ h => ?_
    | refine (typedSpec_batchFlush h).bind fun _ _ => ?_
    | refine (typedSpec_setMultipartVersion (Txn.typed_new _) _).bind fun _ h => ?_
    | refine (typedSpec_txnCommitAt h).bind' fun _ => ?_
    | refine typedSpec_modifyDb ?_ ?_
    | refine Spec.bind' ?_ fun _ => ?_
    | refine Spec.ite ?_ ?_
    | split
  exacts [fun _ => rfl, fun _ h => h]

theorem typedSpec_startMultipartInsert (version : Nat) :
    TypedSpec ns (startMultipartInsert version) fun _ => True := by
  unfold startMultipartInsert
  dsimp only
  repeat' with_reducible first
    | exact Spec.pure' trivial | exact Spec.throw' _ | exact TypedSpec.of_keeps keeps_getDb
    | refine (typedSpec_setMultipartVersion (Txn.typed_new _) _).bind fun _ h => ?_
    | refine (typedSpec_txnCommitAt h).bind' fun _ => ?_
    | refine typedSpec_modifyDb ?_ ?_
    | refine Spec.bind' ?_ fun _ => ?_
    | refine Spec.ite ?_ ?_
  exacts [fun _ => rfl, fun _ h => h]

/-! ## Finalize -/

/-- The version batch and the transaction of `Finalize`'s main loop are typed. -/
def FinalizeAcc.typed (ns : Nat) (acc : FinalizeAcc) : Bool :=
  acc.versionBatch.typed ns && acc.tx.typed ns

theorem typedSpec_finalizeRoot (version : Nat) (finalizedRoots : List TypedHash)
    {acc : FinalizeAcc} (hacc : acc.typed ns = true) (rootHash : TypedHash) :
    TypedSpec ns (finalizeRoot version finalizedRoots acc rootHash) (·.typed ns = true) := by
  have hacc' := Bool.and_eq_true _ _ ▸ hacc
  unfold finalizeRoot
  dsimp only
  repeat' with_reducible first
    | exact Spec.pure' trivial | exact Spec.throw' _
    | exact TypedSpec.of_keeps keeps_getDb | exact TypedSpec.of_keeps (keeps_txnGet _ _)
    | refine Spec.pure' ?_
    | refine (typedSpec_txnScan _ _).bind fun _ h => ?_
    | refine (typedSpec_deleteKeys hacc'.1 fun k hk =>
        batchWrite_of_writeLogPrefix (h k hk)).bind fun _ h => ?_
    | refine Spec.bind (Q := fun acc : FinalizeAcc => acc.typed ns = true) ?_ fun _ h => ?_
    | refine (typedSpec_txnDelete ?_ ?_).bind fun _ h => ?_
    | refine Spec.tryCatch ?_ fun _ => ?_
    | refine Spec.bind' ?_ fun _ => ?_
    | refine Spec.ite ?_ ?_
    | split
  all_goals first | rfl | simp_all [FinalizeAcc.typed]

theorem typedSpec_finalizeRoots (version : Nat) (finalizedRoots : List TypedHash) :
    ∀ {acc : FinalizeAcc} (_ : acc.typed ns = true) (rs : List TypedHash),
      TypedSpec ns (finalizeRoots version finalizedRoots acc rs) (·.typed ns = true)
  | _, hacc, [] => Spec.pure' hacc
  | _, hacc, r :: rs => (typedSpec_finalizeRoot version finalizedRoots hacc r).bind fun _ h =>
    typedSpec_finalizeRoots version finalizedRoots h rs

theorem typedSpec_deleteLoneNodes (notLoneNodes : List Hash) :
    ∀ {b : WriteBatch} (_ : b.typed ns = true) (hs : List Hash),
      TypedSpec ns (deleteLoneNodes notLoneNodes b hs) (·.typed ns = true)
  | _, hb, [] => Spec.pure' hb
  | _, hb, _ :: hs => by
    unfold deleteLoneNodes
    dsimp only
    refine Spec.ite ?_ ?_ <;>
      refine Spec.bind (Q := fun b : WriteBatch => b.typed ns = true) ?_ fun _ h =>
        typedSpec_deleteLoneNodes notLoneNodes h hs
    exacts [Spec.pure' hb, typedSpec_batchDelete hb rfl]

theorem typedSpec_finalizeBatch (sched : Sched) (roots : List Root) (version : Nat) :
    TypedSpec ns (finalizeBatch sched roots version) (·.typed ns = true) := by
  unfold finalizeBatch
  dsimp only
  refine (TypedSpec.of_keeps (keeps_loadRootsMetadata _ _)).bind' fun _ => Spec.ite_throw ?_
  refine (typedSpec_finalizeRoots _ _
    (show FinalizeAcc.typed ns ⟨_, _, _, _, WriteBatch.new _, Txn.new _⟩ = true from rfl) _).bind
    fun acc hacc => ?_
  have hacc' := Bool.and_eq_true _ _ ▸ hacc
  refine (typedSpec_deleteLoneNodes _ hacc'.1 _).bind fun _ h => Spec.pure' ?_
  simp only [FinalizeAcc.typed, h, hacc'.2, Bool.and_self]

theorem typedSpec_finalizeFlush (sched : Sched) (roots : List Root) :
    TypedSpec ns (finalizeFlush sched roots) fun r => r.2.tx.typed ns = true := by
  unfold finalizeFlush
  refine (TypedSpec.of_keeps (keeps_finalizeChecks _)).bind' fun _ => ?_
  refine (typedSpec_finalizeBatch _ _ _).bind fun acc hacc => ?_
  have hacc' := Bool.and_eq_true _ _ ▸ hacc
  exact (typedSpec_batchFlush hacc'.1).bind fun _ _ => Spec.pure' hacc'.2

/-- After its flush, `Finalize` sets the last finalized version to the version its checks
accepted, which is 64-bit for a well-formed call. -/
theorem finalizeCommit_typed {v : Nat} {acc : FinalizeAcc} (hacc : acc.tx.typed ns = true)
    {w : World} (hw : w.Ok ns) (hv : v < 2 ^ 64)
    (ht : ∀ l, w.db.meta.lastFinalizedVersion = some l → l < v) :
    ((finalizeCommit v acc).exec w).2.Ok ns := by
  have hsave : TypedSpec ns (if acc.rootsChanged then RootsMetadata.save ⟨acc.roots, v⟩ acc.tx
      else pure acc.tx) (·.typed ns = true) :=
    Spec.ite (typedSpec_save _ hacc) (Spec.pure' hacc)
  have hrest (tx : Txn) (htx : tx.typed ns = true) : TypedSpec ns (do
      txnCommitAt tx tsMetadata
      if (← getDb).multipartVersion ≠ multipartVersionNone then cleanMultipartLocked false)
      fun _ => True :=
    (typedSpec_txnCommitAt htx).bind' fun _ => (TypedSpec.of_keeps keeps_getDb).bind' fun _ =>
      Spec.ite (typedSpec_cleanMultipartLocked _) (Spec.pure' trivial)
  unfold finalizeCommit
  rw [exec_bind]
  have hw₁ := hsave w hw
  have hvs := keeps_finalizeCommit_save v acc w
  rcases h₁ : (if acc.rootsChanged then RootsMetadata.save ⟨acc.roots, v⟩ acc.tx
      else pure acc.tx).exec w with ⟨e | tx, w₁⟩ <;> rw [h₁] at hw₁ hvs
  · exact hw₁.1
  dsimp only
  rw [exec_bind]
  have hw₂ := setLastFinalizedVersion_ok (hw₁.2 tx rfl) hw₁.1 hv fun l h => ht l (hvs.2 ▸ h)
  rcases h₂ : (setLastFinalizedVersion tx v).exec w₁ with ⟨e | tx', w₂⟩ <;> rw [h₂] at hw₂
  · exact hw₂.1
  · exact (hrest tx' (hw₂.2 tx' rfl) w₂ hw₂.1).1

theorem typedSpec_finalize (sched : Sched) {roots : List Root}
    (hwf : ∀ r ∈ roots, r.version < 2 ^ 64) :
    TypedSpec ns (finalize sched roots) fun _ => True := fun w hw => by
  have hflush := typedSpec_finalizeFlush sched roots w hw
  have hvs := keeps_finalizeFlush sched roots w
  unfold finalize
  rw [exec_bind]
  rcases h : (finalizeFlush sched roots).exec w with ⟨e | ⟨v, acc⟩, w₁⟩ <;> rw [h] at hflush hvs
  · exact ⟨hflush.1, fun _ h => nomatch h⟩
  obtain ⟨⟨r, hr, rfl⟩, ht⟩ := finalizeFlush_ok h
  exact ⟨finalizeCommit_typed (hflush.2 _ rfl) hflush.1 (hwf r hr)
    fun l hl => (ht l (hvs.2 ▸ hl)).1, fun _ _ => trivial⟩

/-! ## Prune -/

theorem typedSpec_pruneVisitor (version : Nat) (tx : Txn) (n : Node)
    {acc : WriteBatch × Option Error} (hacc : acc.1.typed ns = true) :
    TypedSpec ns (pruneVisitor version tx n acc) fun r => r.2.1.typed ns = true := by
  unfold pruneVisitor
  dsimp only
  refine (Spec.attempt (TypedSpec.of_keeps (keeps_txnGet _ _))).bind fun _ _ => ?_
  split
  · exact Spec.pure' hacc
  · exact Spec.pure' hacc
  · refine Spec.ite ?_ (Spec.pure' hacc)
    refine (Spec.attempt (typedSpec_batchDelete hacc (by rfl))).bind fun _ hr => ?_
    split
    · exact Spec.pure' hacc
    · exact Spec.pure' (hr _ rfl)

/-- A visit whose visitor keeps a property of its state keeps it, for any invariant that
`GetNode` keeps. -/
theorem Spec.visit {I : World → Prop} {σ : Type} {P : σ → Prop} (root : Root)
    {f : Node → σ → DbM (Bool × σ)} (hget : ∀ h, Spec I (getNode root h) fun _ => True)
    (hf : ∀ n acc, P acc → Spec I (f n acc) fun r => P r.2) :
    ∀ (fuel : Nat) (h : Hash) (acc : σ), P acc → Spec I (visit root f fuel h acc) fun r => P r.1
  | 0, _, _, hacc => Spec.pure' hacc
  | fuel + 1, h, acc, hacc => by
    unfold Mkvs.Badger.visit
    dsimp only
    have hchildren : ∀ (l : List Hash) (r : σ × Option Error), P r.1 →
        Spec I (l.foldlM (fun r c =>
          if r.2.isSome then pure r else Mkvs.Badger.visit root f fuel c r.1) r) fun r => P r.1 :=
      Spec.foldlM fun r c hr => by
        split
        · exact Spec.pure' hr
        · exact Spec.visit root hget hf fuel c r.1 hr
    repeat' with_reducible first
      | exact Spec.pure' ‹_› | exact hchildren _ _ ‹_›
      | refine (Spec.attempt (hget _)).bind fun _ _ => ?_
      | refine (hf _ _ ‹_›).bind fun _ _ => ?_
      | refine Spec.bind' (Spec.pure' trivial) fun _ => ?_
      | refine Spec.ite ?_ ?_
      | split

theorem typedSpec_visit {σ : Type} {P : σ → Prop} (root : Root) {f : Node → σ → DbM (Bool × σ)}
    (hf : ∀ n acc, P acc → TypedSpec ns (f n acc) fun r => P r.2) :
    ∀ (fuel : Nat) (h : Hash) (acc : σ), P acc →
      TypedSpec ns (visit root f fuel h acc) fun r => P r.1 :=
  Spec.visit root (fun _ => TypedSpec.of_keeps (keeps_getNode _ _)) hf

theorem typedSpec_pruneLoneRoots (version : Nat) (tx : Txn) :
    ∀ (roots : List (TypedHash × List TypedHash)) {b : WriteBatch}, b.typed ns = true →
      TypedSpec ns (pruneLoneRoots version tx roots b) (·.typed ns = true)
  | [], _, hb => Spec.pure' hb
  | (rootHash, derived) :: rest, b, hb => by
    unfold pruneLoneRoots
    dsimp only
    split
    · exact typedSpec_pruneLoneRoots version tx rest hb
    refine (TypedSpec.of_keeps keeps_getDb).bind' fun _ => ?_
    refine (typedSpec_visit (P := fun acc : WriteBatch × Option Error => acc.1.typed ns = true)
      _ (fun n _ h => typedSpec_pruneVisitor version tx n h) _ _ _ hb).bind fun _ hr => ?_
    split
    · exact Spec.bind (Q := fun _ => False) (Spec.throw' _) fun _ h => h.elim
    refine Spec.bind' (Spec.pure' trivial) fun _ => ?_
    split
    · exact Spec.bind (Q := fun _ => False) (Spec.throw' _) fun _ h => h.elim
    refine Spec.bind' (Spec.pure' trivial) fun _ => ?_
    refine (typedSpec_batchDelete hr ?_).bind fun _ hb' =>
      typedSpec_pruneLoneRoots version tx rest hb'
    rfl

theorem typedSpec_pruneBatch (version : Nat) :
    TypedSpec ns (pruneBatch version) fun r => r.1.typed ns = true ∧ r.2.typed ns = true := by
  unfold pruneBatch
  dsimp only
  refine (TypedSpec.of_keeps (keeps_loadRootsMetadata _ _)).bind' fun _ => ?_
  refine (typedSpec_pruneLoneRoots _ _ _ (WriteBatch.typed_new _)).bind fun _ hb => ?_
  refine (typedSpec_txnDelete (Txn.typed_new _) (by rfl)).bind fun _ htx => ?_
  refine (TypedSpec.of_keeps keeps_getDb).bind' fun _ => ?_
  split
  · exact Spec.bind (Q := fun b : WriteBatch => b.typed ns = true) (Spec.pure' hb) fun _ h =>
      Spec.pure' ⟨htx, h⟩
  · refine (typedSpec_txnScan _ _).bind fun _ hks => ?_
    exact (typedSpec_deleteKeys hb fun k hk =>
      batchWrite_of_writeLogVersionPrefix (hks k hk)).bind fun _ h => Spec.pure' ⟨htx, h⟩

theorem typedSpec_pruneFlush (version : Nat) :
    TypedSpec ns (pruneFlush version) (·.typed ns = true) := by
  unfold pruneFlush
  refine (TypedSpec.of_keeps (keeps_pruneChecks _)).bind' fun _ => ?_
  refine (typedSpec_pruneBatch _).bind fun _ h => ?_
  exact (typedSpec_batchFlush h.2).bind fun _ _ => Spec.pure' h.1

theorem typedSpec_prune (version : Nat) : TypedSpec ns (prune version) fun _ => True :=
  fun w hw => by
  have hflush := typedSpec_pruneFlush version w hw
  have hvs := keeps_pruneFlush version w
  unfold prune
  rw [exec_bind]
  rcases h : (pruneFlush version).exec w with ⟨e | tx, w₁⟩ <;> rw [h] at hflush hvs
  · exact ⟨hflush.1, fun _ h => nomatch h⟩
  obtain ⟨-, -, hv, l, hls, hlt⟩ := pruneFlush_ok h
  dsimp only
  rw [exec_bind]
  have hw₂ := setEarliestVersion_ok (hflush.2 tx rfl) hflush.1 (hv.trans hvs.1.symm)
    (hvs.2.trans hls) hlt
  rcases h₂ : (setEarliestVersion tx ((version + 1) % 2 ^ 64)).exec w₁ with ⟨e | tx', w₂⟩ <;>
    rw [h₂] at hw₂
  · exact ⟨hw₂.1, fun _ h => nomatch h⟩
  · exact typedSpec_txnCommitAt (hw₂.2 tx' rfl) w₂ hw₂.1

/-! ## Opening the database

`New` starts from a closed handle, so it is not a `TypedSpec`: it resets the in-memory
metadata, then `load` reads the stored record, which a typed store holds and which is of
the current format and of the database's namespace. -/

/-- A fresh transaction reads the store at its timestamp. -/
theorem txnGet_new_ok {ts : Nat} {k : Key} {w w' : World} {r : Option (Nat × Value)}
    (h : (txnGet (Txn.new ts) k).exec w = (.ok r, w')) :
    r = w.db.store.get k ts ∧ Frame.world.rel w w' := by
  refine ⟨?_, (keeps_txnGet (F := Frame.world) _ _).rel_of_exec h⟩
  unfold txnGet at h
  simp only [Txn.new, exec_bind, exec_ite, exec_throw, exec_pure, Bool.false_eq_true,
    if_false] at h
  rcases htk : tick.exec w with ⟨_ | _, w₁⟩ <;> rw [htk] at h
  · cases h
  · simp only [List.lookup_nil, exec_bind, exec_getDb, exec_pure, Prod.mk.injEq,
      Except.ok.injEq] at h
    rw [← h.1, (tick_ok htk).1]

/-- A typed store holds no migration marker, so the check `load` makes first passes. -/
theorem migration_exec {w : World} (hw : w.Typed ns) :
    ∃ w₁, Frame.world.rel w w₁ ∧
      (tryCatch (txnGet (Txn.new tsMetadata) .migrationMeta) fun _ => pure none).exec w =
        (.ok none, w₁) := by
  rw [exec_tryCatch]
  rcases h : (txnGet (Txn.new tsMetadata) .migrationMeta).exec w with ⟨e | r, w₁⟩
  · exact ⟨w₁, (keeps_txnGet (F := Frame.world) _ _).rel_of_exec h, rfl⟩
  · obtain ⟨rfl, hrel⟩ := txnGet_new_ok h
    exact ⟨w₁, hrel, by rw [Store.get_migrationMeta hw.store]⟩

/-- `load` keeps a typed store typed; it succeeds only for a handle of the stored
namespace, and then loads the stored metadata. -/
theorem load_typed {w : World} (hw : w.Typed ns) :
    (load.exec w).2.Typed ns ∧
      ((load.exec w).1 = .ok () → (load.exec w).2.db.MetaOk ns ∧ w.db.ns = ns) := by
  obtain ⟨w₁, hw₁, hm⟩ := migration_exec hw
  obtain ⟨t, m, hget, hmv, hmns, hmb⟩ := Store.get_metadata hw.store hw.stored
  unfold load
  dsimp only
  rw [exec_bind, hm]
  simp only [Option.isSome_none, Bool.false_eq_true, if_false, exec_bind, exec_pure]
  rcases h2 : (txnGet (Txn.new tsMetadata) .metadata).exec w₁ with ⟨e | r, w₂⟩
  · exact ⟨hw.of_world (Frame.world.trans hw₁ ((keeps_txnGet (F := Frame.world) _ _).rel_of_exec h2)),
      fun h => by cases h⟩
  · obtain ⟨hr, hrel⟩ := txnGet_new_ok h2
    rw [hw₁.1, hget] at hr
    subst hr
    have hw₂ : w₂.Typed ns := hw.of_world (Frame.world.trans hw₁ hrel)
    have hT : World.Typed ns { w₂ with db := { w₂.db with meta := m } } :=
      ⟨hw₂.store, hw₂.stored, hw₂.handles⟩
    simp only [hmv, ne_eq, not_true_eq_false, if_false, exec_bind, exec_modifyDb, exec_pure,
      exec_getDb, exec_ite, exec_throw]
    split
    · exact ⟨hT, fun h => by cases h⟩
    · rename_i hn
      have hdb : w₂.db = w.db := hrel.1.trans hw₁.1
      exact ⟨hT, fun _ => ⟨⟨hmv, hmns, hmb⟩, hdb ▸ (not_not.1 hn).symm.trans hmns⟩⟩

/-- `New` keeps a typed store typed. It succeeds only under the stored namespace, and then
the handle holds metadata of the current format and of that namespace. -/
theorem new_typed (cfg : Config) {w : World} (hw : w.Typed ns) :
    ((new cfg).exec w).2.Typed ns ∧
      (((new cfg).exec w).1 = .ok () → ((new cfg).exec w).2.db.MetaOk ns ∧ cfg.ns = ns) := by
  unfold new
  simp only [exec_bind, exec_modifyDb]
  obtain ⟨hT, hM⟩ := load_typed (w := { w with db := ⟨cfg.ns, cfg.readOnly,
    cfg.discardWriteLogs, multipartVersionNone, ⟨0, 0, 0, none, 0⟩, w.db.store⟩ })
    ⟨hw.store, hw.stored, hw.handles⟩
  revert hT hM
  rcases load.exec _ with ⟨_ | _, w₁⟩ <;> intro hT hM
  · exact ⟨hT, fun h => by cases h⟩
  · have := typedSpec_cleanMultipartLocked true w₁ ⟨hT, (hM rfl).1⟩
    exact ⟨this.1.1, fun _ => ⟨this.1.2, (hM rfl).2⟩⟩

/-! ## Runs -/

/-- Every call but `New` keeps an open database typed. -/
theorem typedSpec_run (a : Action) (ha : ∀ cfg, a ≠ .reopen cfg) (hwf : a.WellFormed) :
    TypedSpec ns a.run fun _ => True := by
  cases a with
  | newBatch => exact typedSpec_newBatch _ _ _ _
  | putNode => exact typedSpec_putNode _ _
  | removeNodes => exact typedSpec_removeNodes _ _
  | putWriteLog => exact typedSpec_putWriteLog _ _ _
  | commit => exact typedSpec_commit _ _
  | reset => exact typedSpec_reset _
  | finalize => exact typedSpec_finalize _ hwf
  | prune => exact typedSpec_prune _
  | startMultipartInsert => exact typedSpec_startMultipartInsert _
  | abortMultipartInsert => exact typedSpec_cleanMultipartLocked _
  | reopen cfg => exact absurd rfl (ha cfg)

/-- The invariant of the database of namespace `ns` along a run: every stored version and
every version a handle holds is typed, the store holds a metadata record, and while the
database is open its in-memory metadata is of the current format and of `ns`. -/
structure Sys.Typed (ns : Nat) (s : Sys) : Prop where
  world : (s.world none).Typed ns
  meta : s.isOpen = true → s.db.MetaOk ns

theorem Sys.Typed.world_of {s : Sys} (hs : s.Typed ns) (fault : Option Nat) :
    (s.world fault).Typed ns :=
  ⟨hs.world.store, hs.world.stored, hs.world.handles⟩

/-- A call on an open database, or a `New`, keeps the invariant. -/
theorem step_typed {s : Sys} (hs : s.Typed ns) {c : Call} (hwf : c.action.WellFormed)
    (hc : s.isOpen = true ∨ ∃ cfg, c.action = .reopen cfg) : (step s c).2.Typed ns := by
  rcases c with ⟨a, fault⟩
  by_cases ha : ∃ cfg, a = .reopen cfg
  · obtain ⟨cfg, rfl⟩ := ha
    obtain ⟨hT, hM⟩ := new_typed cfg (w := ⟨s.db, fun _ => Batch.closed, fault⟩)
      ⟨hs.world.store, hs.world.stored, fun _ => Batch.typed_closed⟩
    refine ⟨⟨hT.store, hT.stored, hT.handles⟩, fun ho => (hM ?_).1⟩
    revert ho
    show Action.isOpenAfter (.reopen cfg) ((new cfg).exec ⟨s.db, fun _ => Batch.closed, fault⟩).1
      s.isOpen = true → _
    rcases ((new cfg).exec ⟨s.db, fun _ => Batch.closed, fault⟩).1 with _ | ⟨⟩ <;>
      simp [Action.isOpenAfter]
  · push_neg at ha
    have hopen : s.isOpen = true := hc.resolve_right fun ⟨cfg, h⟩ => ha cfg h
    obtain ⟨⟨hT, hM⟩, -⟩ := typedSpec_run a ha hwf (s.world fault) ⟨hs.world_of fault, hs.meta hopen⟩
    obtain ⟨-, hdb, hb⟩ := step_exec (s := s) ha fault
    exact ⟨hT.of_world ⟨hdb, hb⟩, fun _ => hdb ▸ hM⟩

theorem fresh_typed (cfg : Config) : (Sys.fresh cfg).Typed cfg.ns := by
  have hfresh : Sys.fresh cfg = ⟨⟨cfg.ns, cfg.readOnly, cfg.discardWriteLogs, 0,
      ⟨dbVersion, cfg.ns, 0, none, 0⟩,
      ⟨[⟨.metadata, tsMetadata, some (.metadata ⟨dbVersion, cfg.ns, 0, none, 0⟩)⟩]⟩⟩, true,
      fun _ => Batch.closed, []⟩ := rfl
  rw [hfresh]
  refine ⟨⟨?_, ⟨_, List.mem_singleton_self _, rfl, le_rfl⟩, fun _ => Batch.typed_closed⟩,
    fun _ => ⟨rfl, rfl, fresh_versionBounds cfg⟩⟩
  simp [Sys.world, Entry.typed, typedWrite, Key.admits, Metadata.bounded]

/-- Every state a run from a freshly created database reaches is typed. -/
theorem reachable_typed {cfg : Config} {s : Sys} (hs : Reachable cfg s) : s.Typed cfg.ns := by
  induction hs with
  | fresh => exact fresh_typed cfg
  | step c _ hwf hc ih => exact step_typed ih hwf hc

end Mkvs.Badger
