import Mkvs.Proofs.Versions

/-!
# Failed calls

A failing backing-store step ends an operation with its error, and what the operation has
already written stays. `Prune` and `Finalize` write in two stages: they flush a batch of
deletions at the version's timestamp, and then save and commit the metadata in a
transaction. A failure at or before the flush leaves the state as it was
(`prune_error_retry`, `finalize_error_before_flush`). A failure after it leaves the
flushed deletions in place under metadata that still lists what they deleted; for `Prune`
the in-memory earliest version has moved on too, so a retry is refused.
-/

namespace Mkvs.Badger

variable {α β : Type}

/-! ## Failing runs -/

/-- Every failing run of `p` ends in a world related to the one it started in. -/
def KeepsOnError (F : Frame) (p : DbM α) : Prop :=
  ∀ w e w', p.exec w = (.error e, w') → F.rel w w'

namespace KeepsOnError

variable {F : Frame}

theorem of_keeps {p : DbM α} (h : Keeps F p) : KeepsOnError F p := fun w _ _ he => by
  simpa only [he] using h w

/-- A bind fails keeping `F` when its first part keeps `F` on every run and its second
fails keeping `F`. -/
theorem bind {x : DbM α} {f : α → DbM β} (hx : Keeps F x) (hf : ∀ a, KeepsOnError F (f a)) :
    KeepsOnError F (x >>= f) := fun w e w' h => by
  rcases exec_bind_error h with h | ⟨a, w₁, h₁, h⟩
  · exact of_keeps hx w e w' h
  · exact F.trans (by simpa only [h₁] using hx w) (hf a w₁ e w' h)

/-- Returning a value after `x` fails only where `x` fails. -/
theorem bind_pure {x : DbM α} (hx : KeepsOnError F x) (g : α → β) :
    KeepsOnError F (x >>= fun a => pure (g a)) := fun w e w' h => by
  rcases exec_bind_error h with h | ⟨_, _, -, h⟩
  · exact hx w e w' h
  · cases h

end KeepsOnError

/-- A failing `Flush` writes nothing. -/
theorem batchFlush_onError (b : WriteBatch) : KeepsOnError Frame.world (batchFlush b) := by
  intro w e w' h
  have ht := keeps_tick (F := Frame.world) w
  unfold batchFlush at h
  split at h
  · simp only [throw_bind, exec_throw, Prod.mk.injEq] at h
    exact h.2 ▸ Frame.world.refl w
  · simp only [pure_bind, exec_bind, exec_modifyDb, exec_pure] at h
    rcases htk : tick.exec w with ⟨_ | _, w₁⟩ <;> rw [htk] at h ht
    · simp only [Prod.mk.injEq] at h
      exact h.2 ▸ ht
    · simp only [Prod.mk.injEq, reduceCtorEq, false_and] at h

theorem pruneFlush_onError (version : Nat) : KeepsOnError Frame.world (pruneFlush version) :=
  .bind (keeps_pruneChecks _) fun _ => .bind (keeps_pruneBatch _) fun r =>
    (batchFlush_onError r.2).bind_pure _

theorem finalizeFlush_onError (sched : Sched) (roots : List Root) :
    KeepsOnError Frame.world (finalizeFlush sched roots) :=
  .bind (keeps_finalizeChecks _) fun _ => .bind (keeps_finalizeBatch _ _ _) fun acc =>
    (batchFlush_onError acc.versionBatch).bind_pure _

/-- A call other than `New` that fails keeps the open flag and the ghost history; the
database and the batch handles are those its operation leaves. -/
theorem step_of_error {s : Sys} {a : Action} {fault : Option Nat} (ha : ∀ cfg, a ≠ .reopen cfg)
    {e : Error} {w' : World} (h : a.run.exec (s.world fault) = (.error e, w')) :
    step s ⟨a, fault⟩ = (.error e, { s with db := w'.db, batches := w'.batches }) := by
  have hb : a.batchesBefore s.batches = s.batches := by
    cases a <;> first | rfl | exact absurd rfl (ha _)
  have ho : a.isOpenAfter (.error e) s.isOpen = s.isOpen := by
    cases a <;> first | rfl | exact absurd rfl (ha _)
  have hc : commitsAfter s ⟨a, fault⟩ (.error e) = s.commits := by cases a <;> rfl
  unfold Sys.world at h
  simp only [step, hb, h, ho, hc]

/-! ## Prune

After its flush, `Prune` sets the in-memory earliest version to `V + 1` before it saves and
commits the metadata (`pruneCommit_versions`). Nothing in between touches the fields its
checks read otherwise, so a retry from the state a late failure leaves is refused with
`NotEarliest`. -/

/-- The fields `Prune`'s checks read, other than the earliest version, and the batch
handles, do not change. -/
def Frame.pruneGuards : Frame where
  rel w w' := w'.db.readOnly = w.db.readOnly ∧ w'.db.multipartVersion = w.db.multipartVersion ∧
    w'.db.meta.lastFinalizedVersion = w.db.meta.lastFinalizedVersion ∧ w'.batches = w.batches
  refl _ := ⟨rfl, rfl, rfl, rfl⟩
  trans h₁ h₂ := ⟨h₂.1.trans h₁.1, h₂.2.1.trans h₁.2.1, h₂.2.2.1.trans h₁.2.2.1,
    h₂.2.2.2.trans h₁.2.2.2⟩
  fault _ _ := ⟨rfl, rfl, rfl, rfl⟩

theorem Frame.pruneGuards_store (w : World) (st : Store) :
    Frame.pruneGuards.rel w { w with db := { w.db with store := st } } := ⟨rfl, rfl, rfl, rfl⟩

theorem keeps_prune_pruneGuards (version : Nat) : Keeps Frame.pruneGuards (prune version) :=
  ((keeps_pruneChecks _).bind fun _ => (keeps_pruneBatch _).bind fun _ =>
      (keeps_batchFlush Frame.pruneGuards_store _).bind fun _ => .pure' _).bind
    fun _ => ((keeps_modifyDb (F := Frame.pruneGuards) fun _ => ⟨rfl, rfl, rfl, rfl⟩).bind
      fun _ => keeps_metaSave _).bind
    fun _ => keeps_txnCommitAt Frame.pruneGuards_store _ _

/-- A failed `Prune(V)` left the world as it was, or it passed its checks and failed after
its flush, having set the earliest version to `V + 1`. -/
theorem prune_error_world {version : Nat} {w w' : World} {e : Error}
    (h : (prune version).exec w = (.error e, w')) :
    Frame.world.rel w w' ∨
      (Frame.pruneGuards.rel w w' ∧ w'.db.meta.earliestVersion = (version + 1) % 2 ^ 64 ∧
        w.db.readOnly = false ∧ w.db.multipartVersion = multipartVersionNone ∧
        ∃ l, w.db.meta.lastFinalizedVersion = some l ∧ version < l) := by
  have hg : Frame.pruneGuards.rel w w' := by simpa only [h] using keeps_prune_pruneGuards version w
  unfold prune at h
  rcases exec_bind_error h with h | ⟨tx, w₁, hf, h⟩
  · exact .inl (pruneFlush_onError version w e w' h)
  · obtain ⟨hro, hmp, -, hl⟩ := pruneFlush_ok hf
    have he := (pruneCommit_versions tx ((version + 1) % 2 ^ 64) w₁).2
    rw [h] at he
    exact .inr ⟨hg, he, hro, hmp, hl⟩

theorem pruneChecks_notEarliest {version l : Nat} {w : World} (hro : w.db.readOnly = false)
    (hmp : w.db.multipartVersion = multipartVersionNone)
    (hl : w.db.meta.lastFinalizedVersion = some l) (hle : version ≤ l)
    (hne : version ≠ w.db.meta.earliestVersion) :
    (pruneChecks version).exec w = (.error .notEarliest, w) := by
  unfold pruneChecks
  simp [exec_bind, hro, hmp, hl, hne, Nat.not_lt.mpr hle]

/-- A version is never its own successor in 64 bits. -/
theorem ne_succ_mod (version : Nat) : version ≠ (version + 1) % 2 ^ 64 := by
  omega

/-- When `Prune(V)` fails, either nothing changed (it failed in its checks, its traversal or
its batch flush), or it failed in saving or committing the metadata after its flush: then
the earliest version already reads `V + 1`, and a retried `Prune(V)` on a working store is
refused with `NotEarliest` and changes nothing. -/
theorem prune_error_retry (s : Sys) (version : Nat) (fault : Option Nat) (e : Error)
    (h : (step s ⟨.prune version, fault⟩).1 = .error e) :
    (step s ⟨.prune version, fault⟩).2 = s ∨
      ((step s ⟨.prune version, fault⟩).2.db.meta.earliestVersion = (version + 1) % 2 ^ 64 ∧
        step (step s ⟨.prune version, fault⟩).2 ⟨.prune version, none⟩ =
          (.error .notEarliest, (step s ⟨.prune version, fault⟩).2)) := by
  obtain ⟨w', hrun⟩ : ∃ w', (prune version).exec (s.world fault) = (.error e, w') :=
    ⟨_, Prod.ext h rfl⟩
  rw [step_of_error (a := .prune version) (fun _ h => nomatch h) hrun]
  rcases prune_error_world hrun with hw | ⟨hg, he, hro, hmp, l, hl, hlt⟩
  · exact .inl (by rw [hw.1, hw.2]; rfl)
  · let w₁ := Sys.world { s with db := w'.db, batches := w'.batches } none
    have hretry : (prune version).exec w₁ = (.error .notEarliest, w₁) := by
      unfold prune pruneFlush
      dsimp only
      rw [exec_bind, exec_bind, pruneChecks_notEarliest (w := w₁) (hg.1.trans hro)
        (hg.2.1.trans hmp) (hg.2.2.1.trans hl) hlt.le (he ▸ ne_succ_mod version)]
    have hstep := step_of_error (a := .prune version) (fun _ h => nomatch h) hretry
    exact .inr ⟨he, hstep⟩

/-- A run that commits and finalizes version 0, whose root is lone and holds one leaf, and
then commits and finalizes version 1. -/
def pruneSetupTrace : List Call :=
  [⟨.newBatch 0 ⟨7, 0, .state, 0⟩ 0 false, none⟩, ⟨.putNode 0 (.leaf 1 10), none⟩,
    ⟨.commit 0 ⟨7, 0, .state, (Node.leaf 1 10).getHash⟩, none⟩,
    ⟨.finalize .inOrder [⟨7, 0, .state, (Node.leaf 1 10).getHash⟩], none⟩,
    ⟨.newBatch 1 ⟨7, 1, .state, 0⟩ 1 false, none⟩, ⟨.commit 1 ⟨7, 1, .state, 200⟩, none⟩,
    ⟨.finalize .inOrder [⟨7, 1, .state, 200⟩], none⟩]

/-- After `pruneSetupTrace`, `Prune(0)` whose metadata commit (its tenth store step) fails
meets the condition of `prune_error_retry`. -/
theorem prune_error_retry_at_commit :
    let s := (run (Sys.fresh ⟨7, false, false⟩) pruneSetupTrace).2
    (step s ⟨.prune 0, some 9⟩).1 = .error .storage ∧
      ((step s ⟨.prune 0, some 9⟩).2 = s ∨
        ((step s ⟨.prune 0, some 9⟩).2.db.meta.earliestVersion = (0 + 1) % 2 ^ 64 ∧
          step (step s ⟨.prune 0, some 9⟩).2 ⟨.prune 0, none⟩ =
            (.error .notEarliest, (step s ⟨.prune 0, some 9⟩).2))) :=
  ⟨by decide, prune_error_retry _ 0 (some 9) .storage (by decide)⟩

/-- On the same state `Prune(0)` succeeds with a working store, but once it has failed at
its metadata commit, the retry is refused. -/
theorem prune_retry_refused_after_commit_fault :
    let s := (run (Sys.fresh ⟨7, false, false⟩) pruneSetupTrace).2
    (run (Sys.fresh ⟨7, false, false⟩) pruneSetupTrace).1.all Except.isOk ∧
      (step s ⟨.prune 0, none⟩).1 = .ok () ∧
      (step s ⟨.prune 0, some 9⟩).1 = .error .storage ∧
      (step (step s ⟨.prune 0, some 9⟩).2 ⟨.prune 0, none⟩).1 = .error .notEarliest := by
  decide

/-! ## Finalize

`Finalize` flushes the deletions of the roots it drops before it saves the roots metadata,
sets the last finalized version and commits; the restore cleanup runs after the commit. -/

/-- When `Finalize` fails in its checks, its reads or its version batch's flush, it returns
that error and the state is as it was. -/
theorem finalize_error_before_flush (s : Sys) (sched : Sched) (roots : List Root)
    (fault : Option Nat) (e : Error)
    (h : ((finalizeFlush sched roots).exec (s.world fault)).1 = .error e) :
    step s ⟨.finalize sched roots, fault⟩ = (.error e, s) := by
  obtain ⟨w', hf⟩ : ∃ w', (finalizeFlush sched roots).exec (s.world fault) = (.error e, w') :=
    ⟨_, Prod.ext h rfl⟩
  have hw := finalizeFlush_onError sched roots _ e w' hf
  have hrun : (finalize sched roots).exec (s.world fault) = (.error e, w') := by
    unfold finalize
    rw [exec_bind, hf]
  rw [step_of_error (a := .finalize sched roots) (fun _ h => nomatch h) hrun, hw.1, hw.2]
  rfl

/-- Two sibling roots of version 1 from the empty root, each holding one leaf of its own. -/
def siblingA : Root := ⟨7, 1, .state, (Node.leaf 1 10).getHash⟩
def siblingB : Root := ⟨7, 1, .state, (Node.leaf 2 20).getHash⟩

/-- Commit `A` and then `B`, each in its own batch. -/
def siblingTrace : List Call :=
  [⟨.newBatch 0 ⟨7, 1, .state, 0⟩ 1 false, none⟩, ⟨.putNode 0 (.leaf 1 10), none⟩,
    ⟨.commit 0 siblingA, none⟩,
    ⟨.newBatch 1 ⟨7, 1, .state, 0⟩ 1 false, none⟩, ⟨.putNode 1 (.leaf 2 20), none⟩,
    ⟨.commit 1 siblingB, none⟩]

/-- `Finalize([A])` after `siblingTrace` whose flush (its seventh store step) fails meets the
condition of `finalize_error_before_flush`. -/
theorem finalize_error_before_flush_at_flush :
    let s := (run (Sys.fresh ⟨7, false, false⟩) siblingTrace).2
    ((finalizeFlush .inOrder [siblingA]).exec (s.world (some 6))).1 = .error .storage ∧
      step s ⟨.finalize .inOrder [siblingA], some 6⟩ = (.error .storage, s) :=
  ⟨by decide, finalize_error_before_flush _ _ _ _ _ (by decide)⟩

/-- `Finalize([A])` whose metadata commit (its tenth store step) fails returns an error after
its flush has deleted the leaf of the dropped sibling `B`: `GetNode` on `B` served it before
the call and no longer does, while `B` is still in the roots metadata. -/
theorem finalize_error_after_flush_drops_node :
    let s := (run (Sys.fresh ⟨7, false, false⟩) siblingTrace).2
    (run (Sys.fresh ⟨7, false, false⟩) siblingTrace).1.all Except.isOk ∧
      s.query (getNode siblingB (Node.leaf 2 20).getHash) = .ok (.leaf 2 20) ∧
      (step s ⟨.finalize .inOrder [siblingA], some 9⟩).1 = .error .storage ∧
      (step s ⟨.finalize .inOrder [siblingA], some 9⟩).2.query
        (getNode siblingB (Node.leaf 2 20).getHash) = .error .nodeNotFound ∧
      (step s ⟨.finalize .inOrder [siblingA], some 9⟩).2.query (hasRoot siblingB) = .ok true := by
  decide

end Mkvs.Badger
