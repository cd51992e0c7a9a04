import Mkvs.Proofs.Restore

/-!
# Commit in two parts

`Commit` checks the batch and the root, reads the roots metadata, registers the root in the
batch and builds the metadata transaction; then, unless it reset a normal batch whose root
was already there, it flushes the restore log, then the node batch, and commits the
transaction last. `commitPrepare` is the first part, and `commit_eq_prepare` splits `Commit`
there.

The first part writes nothing to the database (`keeps_commitPrepare`), and a run of it that
succeeds under a fault plan is the run it makes with a working store
(`commitPrepare_without_fault`), and so is a run of the whole of `Commit`
(`commit_without_fault`). A run of the flushes that succeeds leaves all three writes
(`commitFlush_ok`); one that fails leaves none, the restore log alone, or both batches
without the metadata (`commitFlush_error`).
-/

namespace Mkvs.Badger

variable {α β : Type}

/-! ## Batch handles -/

@[simp] theorem exec_getBatch (id : Nat) (w : World) :
    (getBatch id).exec w = (.ok (w.batches id), w) := rfl

@[simp] theorem exec_setBatch (id : Nat) (ba : Batch) (w : World) :
    (setBatch id ba).exec w =
      (.ok (), { w with batches := fun i => if i = id then ba else w.batches i }) := rfl

theorem ite_bind {c : Prop} [Decidable c] (x y : DbM α) (f : α → DbM β) :
    (if c then x else y) >>= f = if c then x >>= f else y >>= f := by
  split <;> rfl

/-- The restore-log entries of a batch; a normal batch has none. -/
def Batch.logWrites (ba : Batch) : List Entry := (ba.multipartNodes.map (·.writes)).getD []

/-! ## The split -/

/-- `Commit` up to its flushes: the metadata transaction to commit, or `none` when it has
reset a normal batch whose root was already there. -/
def commitPrepare (id : Nat) (root : Root) : DbM (Option Txn) := do
  Batch.commitChecks (← getBatch id) root
  let tx := Txn.new (versionToTs root.version)
  let rm ← loadRootsMetadata tx root.version
  let rootHash := TypedHash.fromRoot root
  Batch.registerRoot id rootHash
  let ba ← getBatch id
  let present := (rm.roots.lookup rootHash).isSome
  if present && !ba.chunk then
    Batch.reset id
    return none
  else
    let tx ← if present then pure tx
      else RootsMetadata.save { rm with roots := setRoot rm.roots rootHash [] } tx
    let tx ← if ba.chunk then
        txnSet tx (.rootUpdatedNodes root.version rootHash) (.updatedNodes [])
      else Batch.commitLinks id root rootHash tx
    return some tx

theorem commit_eq_prepare (id : Nat) (root : Root) :
    Batch.commit id root =
      commitPrepare id root >>= fun o => o.elim (pure ()) (Batch.commitFlush id) := by
  simp only [Batch.commit, commitPrepare, bind_assoc, ite_bind, pure_bind, Option.elim_some,
    Option.elim_none, bind_pure_unit]

theorem keeps_commitPrepare (id : Nat) (root : Root) : Keeps Frame.db (commitPrepare id root) := by
  unfold commitPrepare
  dsimp only
  repeat' with_reducible first
    | exact .pure' _ | exact keeps_getBatch _ | exact keeps_commitChecks _ _
    | exact keeps_loadRootsMetadata _ _ | exact keeps_save _ _ | exact keeps_txnSet _ _ _
    | exact keeps_registerRoot _ _ | exact keeps_reset _ | exact keeps_commitLinks _ _ _ _
    | refine .bind ?_ fun _ => ?_
    | refine .ite ?_ ?_

/-- A failed `Commit` failed before its flushes, writing nothing, or in them. -/
theorem commit_error_cases {id : Nat} {root : Root} {w w' : World} {e : Error}
    (h : (Batch.commit id root).exec w = (.error e, w')) :
    w'.db = w.db ∨ ∃ tx w₁, (commitPrepare id root).exec w = (.ok (some tx), w₁) ∧
      (Batch.commitFlush id tx).exec w₁ = (.error e, w') := by
  rw [commit_eq_prepare] at h
  rcases exec_bind_error h with h | ⟨_ | tx, w₁, h₁, h⟩
  · exact .inl ((keeps_commitPrepare id root).rel_of_exec h)
  · cases h
  · exact .inr ⟨tx, w₁, h₁, h⟩

/-- A successful `Commit` prepared a transaction and flushed, or reset its batch. -/
theorem commit_ok_cases {id : Nat} {root : Root} {w w' : World}
    (h : (Batch.commit id root).exec w = (.ok (), w')) :
    (commitPrepare id root).exec w = (.ok none, w') ∨ ∃ tx w₁,
      (commitPrepare id root).exec w = (.ok (some tx), w₁) ∧
        (Batch.commitFlush id tx).exec w₁ = (.ok (), w') := by
  rw [commit_eq_prepare] at h
  obtain ⟨_ | tx, w₁, h₁, h⟩ := exec_bind_ok h
  · cases h
    exact .inl h₁
  · exact .inr ⟨tx, w₁, h₁, h⟩

/-! ## The first part without faults -/

/-- A run of `p` that succeeds under a fault plan is the run `p` makes with a working
store. -/
def OkWithoutFault (p : DbM α) : Prop :=
  ∀ w a w', p.exec w = (.ok a, w') →
    p.exec { w with fault := none } = (.ok a, { w' with fault := none })

namespace OkWithoutFault

theorem pure' (a : α) : OkWithoutFault (pure a) := fun _ _ _ h => by
  simp only [exec_pure, Prod.mk.injEq, Except.ok.injEq] at h
  rw [← h.1, ← h.2]
  rfl

theorem throw' (e : Error) : OkWithoutFault (throw e : DbM α) := fun _ _ _ h => by
  simp at h

theorem bind {x : DbM α} {f : α → DbM β} (hx : OkWithoutFault x)
    (hf : ∀ a, OkWithoutFault (f a)) : OkWithoutFault (x >>= f) := fun w _ _ h => by
  obtain ⟨a, w₁, h₁, h₂⟩ := exec_bind_ok h
  rw [exec_bind, hx _ _ _ h₁]
  exact hf a _ _ _ h₂

theorem ite {c : Prop} [Decidable c] {x y : DbM α} (hx : OkWithoutFault x)
    (hy : OkWithoutFault y) : OkWithoutFault (if c then x else y) := by
  split <;> assumption

end OkWithoutFault

theorem okWithoutFault_tick : OkWithoutFault tick := fun w _ w' h => by
  unfold tick at h ⊢
  rw [exec_bind, exec_get] at h ⊢
  rcases hf : w.fault with _ | _ | n <;> simp only [hf] at h
  · simp only [exec_pure, Prod.mk.injEq] at h
    rw [← h.2]
    rfl
  · simp at h
  · obtain ⟨-, rfl⟩ := Prod.mk.inj h
    rfl

theorem okWithoutFault_getDb : OkWithoutFault getDb := fun _ _ _ h => by
  simp only [exec_getDb, Prod.mk.injEq, Except.ok.injEq] at h
  rw [← h.1, ← h.2]
  rfl

theorem okWithoutFault_getBatch (id : Nat) : OkWithoutFault (getBatch id) := fun _ _ _ h => by
  simp only [exec_getBatch, Prod.mk.injEq, Except.ok.injEq] at h
  rw [← h.1, ← h.2]
  rfl

theorem okWithoutFault_setBatch (id : Nat) (ba : Batch) : OkWithoutFault (setBatch id ba) :=
  fun _ _ _ h => by
    simp only [exec_setBatch, Prod.mk.injEq] at h
    rw [← h.2]
    rfl

/-- Every step of `Commit`'s first part behaves alike with a working store once it has
succeeded: it has no handler that turns a failing step into a different success. -/
theorem commitPrepare_without_fault (id : Nat) (root : Root) :
    OkWithoutFault (commitPrepare id root) := by
  unfold commitPrepare Batch.commitChecks sanityCheckNamespace Batch.registerRoot Batch.reset
    Batch.commitLinks Batch.linkOldRoot loadRootsMetadata RootsMetadata.save txnGet txnSet
    batchSet batchWriteAt
  dsimp only
  repeat' with_reducible first
    | exact .pure' _ | exact .throw' _ | exact okWithoutFault_tick | exact okWithoutFault_getDb
    | exact okWithoutFault_getBatch _ | exact okWithoutFault_setBatch _ _
    | refine .bind ?_ fun _ => ?_
    | refine .ite ?_ ?_
    | split

theorem okWithoutFault_modifyDb (f : Db → Db) : OkWithoutFault (modifyDb f) := fun _ _ _ h => by
  simp only [exec_modifyDb, Prod.mk.injEq] at h
  rw [← h.2]
  rfl

/-- The flushes have no handler either, so a `Commit` that succeeds under a fault plan is
the `Commit` made with a working store. -/
theorem commit_without_fault (id : Nat) (root : Root) : OkWithoutFault (Batch.commit id root) := by
  rw [commit_eq_prepare]
  refine .bind (commitPrepare_without_fault id root) fun o => ?_
  cases o
  · exact .pure' _
  unfold Option.elim Batch.commitFlush batchFlush txnCommitAt
  dsimp only
  repeat' with_reducible first
    | exact .pure' _ | exact .throw' _ | exact okWithoutFault_tick | exact okWithoutFault_getBatch _
    | exact okWithoutFault_setBatch _ _ | exact okWithoutFault_modifyDb _
    | refine .bind ?_ fun _ => ?_
    | refine .ite ?_ ?_
    | split

/-! ## The flushes -/

theorem txnCommitAt_onError {tx : Txn} {ts : Nat} {w w' : World} {e : Error}
    (h : (txnCommitAt tx ts).exec w = (.error e, w')) : w'.db = w.db := by
  rcases exec_bind_error h with h | ⟨_, _, -, h⟩
  · exact (keeps_tick (F := Frame.world)).rel_of_exec h |>.1
  · simp at h

/-- The node batch's flush, the metadata commit and the reset of the write log, as the end
of `commitFlush` runs them. -/
theorem flushTail_ok {id : Nat} {tx : Txn} {w w' : World}
    (h : (do
      let ba ← getBatch id
      let bat ← batchFlush ba.bat
      setBatch id { ba with bat }
      txnCommitAt tx tsMetadata
      setBatch id { (← getBatch id) with writeLog := none, annotations := none, updatedNodes := [] }
        : DbM Unit).exec w = (.ok (), w')) :
    w'.db = { w.db with store := (w.db.store.flush (w.batches id).bat).commitAt tx tsMetadata } := by
  rw [exec_bind, exec_getBatch] at h
  obtain ⟨_, w₂, h₂, h⟩ := exec_bind_ok h
  obtain ⟨_, w₃, h₃, h⟩ := exec_bind_ok h
  obtain ⟨_, w₄, h₄, h⟩ := exec_bind_ok h
  rw [exec_bind, exec_getBatch] at h
  simp only [exec_setBatch, Prod.mk.injEq] at h₃ h
  rw [← h.2, txnCommitAt_ok h₄, ← h₃.2, batchFlush_ok h₂]

theorem flushTail_error {id : Nat} {tx : Txn} {w w' : World} {e : Error}
    (h : (do
      let ba ← getBatch id
      let bat ← batchFlush ba.bat
      setBatch id { ba with bat }
      txnCommitAt tx tsMetadata
      setBatch id { (← getBatch id) with writeLog := none, annotations := none, updatedNodes := [] }
        : DbM Unit).exec w = (.error e, w')) :
    w'.db = w.db ∨ w'.db = { w.db with store := w.db.store.flush (w.batches id).bat } := by
  rw [exec_bind, exec_getBatch] at h
  rcases exec_bind_error h with h | ⟨_, w₂, h₂, h⟩
  · exact .inl (batchFlush_onError _ w e w' h).1
  rcases exec_bind_error h with h | ⟨_, w₃, h₃, h⟩
  · simp at h
  rcases exec_bind_error h with h | ⟨_, _, -, h⟩
  · simp only [exec_setBatch, Prod.mk.injEq] at h₃
    rw [txnCommitAt_onError h, ← h₃.2, batchFlush_ok h₂]
    exact .inr rfl
  · simp [exec_bind] at h

/-- A successful run of `Commit`'s flushes puts the restore log, above it the node batch,
and above both the metadata transaction. -/
theorem commitFlush_ok {id : Nat} {tx : Txn} {w w' : World}
    (h : (Batch.commitFlush id tx).exec w = (.ok (), w')) :
    w'.db = { w.db with store := ((⟨(w.batches id).logWrites ++ w.db.store.entries⟩ : Store).flush
      (w.batches id).bat).commitAt tx tsMetadata } := by
  unfold Batch.commitFlush at h
  rw [exec_bind, exec_getBatch] at h
  dsimp only at h
  rcases hmn : (w.batches id).multipartNodes with _ | mn <;> simp only [hmn, pure_bind] at h
  · simp only [flushTail_ok h, Batch.logWrites, hmn]
    rfl
  · obtain ⟨mn', w₁, h₁, h⟩ := exec_bind_ok h
    obtain ⟨_, w₂, h₂, h⟩ := exec_bind_ok h
    simp only [exec_setBatch, Prod.mk.injEq] at h₂
    rw [flushTail_ok h, ← h₂.2]
    simp [batchFlush_ok h₁, Batch.logWrites, hmn, Store.flush]

/-- A failing run of `Commit`'s flushes has written nothing, the restore log, or the
restore log and then the node batch, but never the metadata. -/
theorem commitFlush_error {id : Nat} {tx : Txn} {w w' : World} {e : Error}
    (h : (Batch.commitFlush id tx).exec w = (.error e, w')) :
    ∃ Y, (Y = [] ∨ Y = (w.batches id).logWrites ∨
        Y = (w.batches id).bat.writes ++ (w.batches id).logWrites) ∧
      w'.db = { w.db with store := ⟨Y ++ w.db.store.entries⟩ } := by
  unfold Batch.commitFlush at h
  rw [exec_bind, exec_getBatch] at h
  dsimp only at h
  rcases hmn : (w.batches id).multipartNodes with _ | mn <;> simp only [hmn, pure_bind] at h
  · rcases flushTail_error h with h | h
    · exact ⟨[], .inl rfl, h⟩
    · exact ⟨_, .inr (.inr rfl), by simpa [Batch.logWrites, hmn, Store.flush] using h⟩
  rcases exec_bind_error h with h | ⟨mn', w₁, h₁, h⟩
  · exact ⟨[], .inl rfl, (batchFlush_onError _ w e w' h).1⟩
  rcases exec_bind_error h with h | ⟨_, w₂, h₂, h⟩
  · simp at h
  simp only [exec_setBatch, Prod.mk.injEq] at h₂
  have hw₂ : w₂.db = { w.db with store := ⟨(w.batches id).logWrites ++ w.db.store.entries⟩ } := by
    rw [← h₂.2, batchFlush_ok h₁]
    simp [Batch.logWrites, hmn, Store.flush]
  rcases flushTail_error h with h | h
  · exact ⟨_, .inr (.inl rfl), h.trans hw₂⟩
  · refine ⟨_, .inr (.inr rfl), ?_⟩
    rw [h, hw₂, ← h₂.2]
    simp [Store.flush]

end Mkvs.Badger
