import Mkvs.Proofs.Commit

/-!
# What a batch handle holds

Every batch handle of a reachable state is well formed (`reachable_batches_wellFormed`): its
node batch holds versions of nodes, root markers and write logs, none of them a deletion,
and its restore-log batch writes at the metadata timestamp and holds only restore-log
entries. The calls that write a handle keep that, each shown once through `Keeps` with
`Frame.wellFormed`; the other calls leave the handles alone.

A failed `Commit` therefore leaves the roots metadata and the updated-node records as they
were (`commit_error_keeps_roots`): before it fails it may have flushed its restore log and
its node batch, but the metadata transaction, the only one of its writes to those keys,
comes last.
-/

namespace Mkvs.Badger

variable {α β : Type}

/-! ## Well-formed handles -/

/-- The keys a batch's node batch writes: nodes, root markers and write logs. -/
def Key.isBatchKey : Key → Bool
  | .node _ | .rootNode _ | .writeLog _ _ _ => true
  | _ => false

/-- A node batch: versions of nodes, root markers and write logs, and no deletion. -/
def WriteBatch.HoldsNodes (b : WriteBatch) : Prop :=
  ∀ e ∈ b.writes, e.key.isBatchKey = true ∧ e.value.isSome

/-- A restore-log batch: it writes at the metadata timestamp, and only restore-log entries. -/
def WriteBatch.HoldsLog (b : WriteBatch) : Prop :=
  b.commitTs = tsMetadata ∧
    ∀ e ∈ b.writes, ∃ th, e = ⟨.multipartRestoreNodeLog th, tsMetadata, some .empty⟩

/-- A batch handle as the batch operations build it. -/
structure Batch.WellFormed (ba : Batch) : Prop where
  bat : ba.bat.HoldsNodes
  log : ∀ mn, ba.multipartNodes = some mn → mn.HoldsLog

theorem WriteBatch.HoldsNodes.cons {b : WriteBatch} (h : b.HoldsNodes) {k : Key}
    (hk : k.isBatchKey = true) (ts : Nat) (v : Value) :
    { b with writes := ⟨k, ts, some v⟩ :: b.writes }.HoldsNodes := by
  rintro e (_ | ⟨_, he⟩)
  · exact ⟨hk, rfl⟩
  · exact h e he

theorem WriteBatch.HoldsLog.cons {b : WriteBatch} (h : b.HoldsLog) (th : TypedHash) :
    { b with writes := ⟨.multipartRestoreNodeLog th, b.commitTs, some .empty⟩ :: b.writes }.HoldsLog := by
  refine ⟨h.1, ?_⟩
  rintro e (_ | ⟨_, he⟩)
  · exact ⟨th, by rw [h.1]⟩
  · exact h.2 e he

theorem Batch.WellFormed.logWrites {ba : Batch} (h : ba.WellFormed) :
    ∀ e ∈ ba.logWrites, ∃ th, e = ⟨.multipartRestoreNodeLog th, tsMetadata, some .empty⟩ := by
  unfold Batch.logWrites
  rcases hmn : ba.multipartNodes with _ | mn
  · simp
  · exact (h.log mn hmn).2

theorem Batch.closed_wellFormed : Batch.closed.WellFormed where
  bat _ he := nomatch he
  log _ h := nomatch h

/-- The batch handles that satisfy `P` stay well formed. -/
def Frame.wellFormed (P : Nat → Prop) : Frame where
  rel w w' := (∀ i, P i → (w.batches i).WellFormed) → ∀ i, P i → (w'.batches i).WellFormed
  refl _ h := h
  trans h₁ h₂ h := h₂ (h₁ h)
  fault _ _ h := h

/-- The batch handles do not change. -/
def Frame.batches : Frame where
  rel w w' := w'.batches = w.batches
  refl _ := rfl
  trans h₁ h₂ := h₂.trans h₁
  fault _ _ := rfl

section WellFormed

variable {P : Nat → Prop}

theorem Frame.wellFormed_db (w : World) (d : Db) :
    (Frame.wellFormed P).rel w { w with db := d } := fun h => h

theorem Frame.wellFormed_store (w : World) (st : Store) :
    (Frame.wellFormed P).rel w { w with db := { w.db with store := st } } := fun h => h

theorem Frame.wellFormed_of_batches {w w' : World} (h : Frame.batches.rel w w') :
    (Frame.wellFormed P).rel w w' := fun hw i hi => by
  change w'.batches = w.batches at h
  rw [h]
  exact hw i hi

theorem keeps_setBatch_wellFormed {id : Nat} {ba : Batch} (hba : ba.WellFormed) :
    Keeps (Frame.wellFormed P) (setBatch id ba) := fun w hw i hi => by
  simp only [exec_setBatch]
  split
  · exact hba
  · exact hw i hi

/-- A handle read from a world whose handles `P` are well formed is well formed. -/
theorem keeps_getBatch_bind {id : Nat} (hP : P id) {f : Batch → DbM β}
    (hf : ∀ ba, ba.WellFormed → Keeps (Frame.wellFormed P) (f ba)) :
    Keeps (Frame.wellFormed P) (getBatch id >>= f) := fun w hw => by
  rw [exec_bind, exec_getBatch]
  exact hf _ (hw id hP) w hw

theorem keeps_batchWriteAt_bind {b : WriteBatch} {k : Key} {v : Option Value} {ts : Nat}
    {f : WriteBatch → DbM β}
    (hf : Keeps (Frame.wellFormed P) (f { b with writes := ⟨k, ts, v⟩ :: b.writes })) :
    Keeps (Frame.wellFormed P) (batchWriteAt b k v ts >>= f) := fun w => by
  rw [exec_bind]
  have hk := keeps_batchWriteAt (F := Frame.wellFormed P) b k v ts w
  rcases h : (batchWriteAt b k v ts).exec w with ⟨_ | b', w₁⟩ <;> rw [h] at hk
  · exact hk
  · rw [batchWriteAt_ok h]
    exact (Frame.wellFormed P).trans hk (hf w₁)

theorem keeps_batchFlush_bind {b : WriteBatch} {f : WriteBatch → DbM β}
    (hf : Keeps (Frame.wellFormed P) (f { b with finished := true })) :
    Keeps (Frame.wellFormed P) (batchFlush b >>= f) := fun w => by
  rw [exec_bind]
  have hk := keeps_batchFlush (F := Frame.wellFormed P) Frame.wellFormed_store b w
  rcases h : (batchFlush b).exec w with ⟨_ | b', w₁⟩ <;> rw [h] at hk
  · exact hk
  · have hb : b' = { b with finished := true } := by
      unfold batchFlush at h
      split at h
      · simp at h
      · simp only [pure_bind, exec_bind, exec_modifyDb, exec_pure] at h
        rcases htk : tick.exec w with ⟨_ | _, w₂⟩ <;> rw [htk] at h <;>
          simp only [Prod.mk.injEq, Except.ok.injEq, reduceCtorEq, false_and] at h
        exact h.1.symm
    rw [hb]
    exact (Frame.wellFormed P).trans hk (hf w₁)

theorem keeps_batchSet_bind {b : WriteBatch} {k : Key} {v : Value} {f : WriteBatch → DbM β}
    (hf : Keeps (Frame.wellFormed P) (f { b with writes := ⟨k, b.commitTs, some v⟩ :: b.writes })) :
    Keeps (Frame.wellFormed P) (batchSet b k v >>= f) :=
  keeps_batchWriteAt_bind hf

/-! ## The calls that write a handle -/

theorem keeps_putNode_wellFormed {id : Nat} (hP : P id) (n : Node) :
    Keeps (Frame.wellFormed P) (Batch.putNode id n) := by
  unfold Batch.putNode
  dsimp only
  have tail : Keeps (Frame.wellFormed P) (do
      let ba ← getBatch id
      let bat ← batchSet ba.bat (.node n.getHash) (.node n)
      setBatch id { ba with bat }) := by
    refine keeps_getBatch_bind hP fun ba hba => keeps_batchSet_bind ?_
    exact keeps_setBatch_wellFormed ⟨hba.bat.cons (by rfl) _ _, hba.log⟩
  refine keeps_getBatch_bind hP fun ba hba => (keeps_setBatch_wellFormed ?_).bind fun _ => ?_
  · exact ⟨hba.bat, hba.log⟩
  split
  · rename_i mn rt hmn
    simp only [Prod.mk.injEq] at hmn
    refine (Keeps.tryCatch ((keeps_txnGet _ _).map _) fun _ => .pure' _).bind fun _ =>
      .ite (keeps_batchSet_bind (keeps_getBatch_bind hP fun cur hcur =>
        (keeps_setBatch_wellFormed ?_).bind fun _ => tail)) ((Keeps.pure' _).bind fun _ => tail)
    refine ⟨hcur.bat, ?_⟩
    rintro _ ⟨⟩
    exact (hba.log mn hmn.1).cons _
  · exact (Keeps.pure' _).bind fun _ => tail

/-- The handle `NewBatch` stores. -/
theorem fresh_wellFormed (c : Prop) [Decidable c] (ts : Nat) (rt : Option Txn) (oldRoot : Root)
    (chunk : Bool) :
    ({ bat := WriteBatch.new ts, multipartNodes := if c then some (WriteBatch.new tsMetadata) else none,
       readTxn := rt, oldRoot, chunk, writeLog := none, annotations := none, updatedNodes := [] } :
      Batch).WellFormed := by
  refine ⟨fun _ he => (nomatch he), fun mn h => ?_⟩
  split at h <;> cases h
  exact ⟨rfl, fun _ he => (nomatch he)⟩

theorem keeps_newBatch_wellFormed (id : Nat) (oldRoot : Root) (version : Nat) (chunk : Bool) :
    Keeps (Frame.wellFormed P) (newBatch id oldRoot version chunk) := by
  unfold newBatch
  dsimp only
  repeat' with_reducible first
    | exact .pure' _ | exact .throw' _ | exact keeps_getDb
    | exact keeps_setBatch_wellFormed (fresh_wellFormed _ _ _ _ _)
    | refine .bind ?_ fun _ => ?_
    | refine .ite ?_ ?_

theorem keeps_removeNodes_wellFormed {id : Nat} (hP : P id) (hs : List Hash) :
    Keeps (Frame.wellFormed P) (Batch.removeNodes id hs) := by
  unfold Batch.removeNodes
  dsimp only
  refine keeps_getBatch_bind hP fun ba hba => ?_
  repeat' with_reducible first
    | exact .pure' _ | exact .throw' _
    | refine .bind ?_ fun _ => ?_
    | refine .ite ?_ ?_
  all_goals exact keeps_setBatch_wellFormed ⟨hba.bat, hba.log⟩

theorem keeps_putWriteLog_wellFormed {id : Nat} (hP : P id) (wl : Option WriteLog)
    (ann : Option Annotations) : Keeps (Frame.wellFormed P) (Batch.putWriteLog id wl ann) := by
  unfold Batch.putWriteLog
  dsimp only
  refine keeps_getBatch_bind hP fun ba hba => ?_
  repeat' with_reducible first
    | exact .pure' _ | exact .throw' _ | exact keeps_getDb
    | refine .bind ?_ fun _ => ?_
    | refine .ite ?_ ?_
  all_goals exact keeps_setBatch_wellFormed ⟨hba.bat, hba.log⟩

theorem keeps_reset_wellFormed {id : Nat} (hP : P id) :
    Keeps (Frame.wellFormed P) (Batch.reset id) := by
  refine keeps_getBatch_bind hP fun ba hba => keeps_setBatch_wellFormed ?_
  refine ⟨fun _ he => (nomatch he), fun mn h => ?_⟩
  obtain ⟨mn₀, hmn, rfl⟩ := Option.map_eq_some'.mp h
  exact ⟨(hba.log mn₀ hmn).1, fun _ he => (nomatch he)⟩

theorem keeps_registerRoot_wellFormed {id : Nat} (hP : P id) (rootHash : TypedHash) :
    Keeps (Frame.wellFormed P) (Batch.registerRoot id rootHash) := by
  unfold Batch.registerRoot
  dsimp only
  refine keeps_getBatch_bind hP fun ba hba =>
    keeps_batchSet_bind ((keeps_setBatch_wellFormed ?_).bind fun _ => ?_)
  · exact ⟨hba.bat.cons (by rfl) _ _, hba.log⟩
  split
  · rename_i mn hmn
    refine keeps_batchSet_bind (keeps_getBatch_bind hP fun cur hcur => keeps_setBatch_wellFormed ?_)
    refine ⟨hcur.bat, ?_⟩
    rintro _ ⟨⟩
    exact (hba.log mn hmn).cons _
  · exact .pure' _

theorem keeps_commitLinks_wellFormed {id : Nat} (hP : P id) (root : Root) (rootHash : TypedHash)
    (tx : Txn) : Keeps (Frame.wellFormed P) (Batch.commitLinks id root rootHash tx) := by
  unfold Batch.commitLinks
  dsimp only
  refine keeps_getBatch_bind hP fun ba hba => ?_
  repeat' with_reducible first
    | exact .pure' _ | exact keeps_linkOldRoot _ _ _ _ | exact keeps_txnSet _ _ _
    | refine keeps_batchSet_bind (keeps_setBatch_wellFormed ?_)
    | refine .bind ?_ fun _ => ?_
    | refine .ite ?_ ?_
    | split
  all_goals exact ⟨hba.bat.cons (by rfl) _ _, hba.log⟩

theorem keeps_commitPrepare_wellFormed {id : Nat} (hP : P id) (root : Root) :
    Keeps (Frame.wellFormed P) (commitPrepare id root) := by
  unfold commitPrepare
  dsimp only
  repeat' with_reducible first
    | exact .pure' _ | exact keeps_getBatch _ | exact keeps_commitChecks _ _
    | exact keeps_loadRootsMetadata _ _ | exact keeps_save _ _ | exact keeps_txnSet _ _ _
    | exact keeps_registerRoot_wellFormed hP _ | exact keeps_reset_wellFormed hP
    | exact keeps_commitLinks_wellFormed hP _ _ _
    | refine .bind ?_ fun _ => ?_
    | refine .ite ?_ ?_

theorem keeps_commitFlush_wellFormed {id : Nat} (hP : P id) (tx : Txn) :
    Keeps (Frame.wellFormed P) (Batch.commitFlush id tx) := by
  unfold Batch.commitFlush
  dsimp only
  have tail : Keeps (Frame.wellFormed P) (do
      let ba ← getBatch id
      let bat ← batchFlush ba.bat
      setBatch id { ba with bat }
      txnCommitAt tx tsMetadata
      setBatch id { (← getBatch id) with writeLog := none, annotations := none, updatedNodes := [] }) := by
    refine keeps_getBatch_bind hP fun ba hba =>
      keeps_batchFlush_bind ((keeps_setBatch_wellFormed ?_).bind fun _ =>
        (keeps_txnCommitAt Frame.wellFormed_store _ _).bind fun _ =>
          keeps_getBatch_bind hP fun cur hcur => keeps_setBatch_wellFormed ?_)
    · exact ⟨hba.bat, hba.log⟩
    · exact ⟨hcur.bat, hcur.log⟩
  refine keeps_getBatch_bind hP fun ba hba => ?_
  split
  · rename_i mn hmn
    refine keeps_batchFlush_bind ((keeps_setBatch_wellFormed ?_).bind fun _ => tail)
    refine ⟨hba.bat, ?_⟩
    rintro _ ⟨⟩
    exact hba.log mn hmn
  · exact (Keeps.pure' _).bind fun _ => tail

theorem keeps_commit_wellFormed {id : Nat} (hP : P id) (root : Root) :
    Keeps (Frame.wellFormed P) (Batch.commit id root) := by
  rw [commit_eq_prepare]
  refine (keeps_commitPrepare_wellFormed hP root).bind fun o => ?_
  cases o
  · exact .pure' _
  · exact keeps_commitFlush_wellFormed hP _

end WellFormed

/-! ## The other calls leave the handles alone -/

section OfDb

variable {F : Frame} (hF : ∀ w d, F.rel w { w with db := d })
include hF

theorem keeps_cleanMultipartLocked_ofDb (removeNodes : Bool) :
    Keeps F (cleanMultipartLocked removeNodes) := by
  unfold cleanMultipartLocked setMultipartVersion
  dsimp only
  repeat' with_reducible first
    | exact .pure' _ | exact keeps_getDb | exact keeps_txnScan _ _
    | exact keeps_cleanLogEntries _ _ _ | exact keeps_metaSave _
    | exact keeps_batchFlush (fun w _ => hF w _) _ | exact keeps_txnCommitAt (fun w _ => hF w _) _ _
    | exact keeps_modifyDb fun w => hF w _
    | refine .bind ?_ fun _ => ?_
    | refine .ite ?_ ?_

theorem keeps_finalize_ofDb (sched : Sched) (roots : List Root) : Keeps F (finalize sched roots) := by
  unfold finalize finalizeFlush finalizeCommit setLastFinalizedVersion
  dsimp only
  repeat' with_reducible first
    | exact .pure' _ | exact keeps_getDb | exact keeps_finalizeChecks _
    | exact keeps_finalizeBatch _ _ _ | exact keeps_save _ _ | exact keeps_metaSave _
    | exact keeps_batchFlush (fun w _ => hF w _) _ | exact keeps_txnCommitAt (fun w _ => hF w _) _ _
    | exact keeps_modifyDb fun w => hF w _ | exact keeps_cleanMultipartLocked_ofDb hF _
    | refine .bind ?_ fun _ => ?_
    | refine .ite ?_ ?_

theorem keeps_startMultipartInsert_ofDb (version : Nat) : Keeps F (startMultipartInsert version) := by
  unfold startMultipartInsert setMultipartVersion
  dsimp only
  repeat' with_reducible first
    | exact .pure' _ | exact .throw' _ | exact keeps_getDb | exact keeps_metaSave _
    | exact keeps_txnCommitAt (fun w _ => hF w _) _ _ | exact keeps_modifyDb fun w => hF w _
    | refine .bind ?_ fun _ => ?_
    | refine .ite ?_ ?_

theorem keeps_new_ofDb (cfg : Config) : Keeps F (new cfg) := by
  unfold new load
  dsimp only
  repeat' with_reducible first
    | exact .pure' _ | exact .throw' _ | exact keeps_getDb | exact keeps_metaSave _
    | exact keeps_txnGet _ _ | exact keeps_txnCommitAt (fun w _ => hF w _) _ _
    | exact keeps_modifyDb fun w => hF w _ | exact keeps_cleanMultipartLocked_ofDb hF _
    | refine .tryCatch ?_ fun _ => ?_
    | refine .bind ?_ fun _ => ?_
    | refine .ite ?_ ?_
    | split

end OfDb

/-! ## Reachable states -/

/-- Every call keeps every handle well formed. -/
theorem keeps_run_wellFormed (a : Action) : Keeps (Frame.wellFormed fun _ => True) a.run := by
  have hdb : ∀ w d, (Frame.wellFormed fun _ => True).rel w { w with db := d } :=
    Frame.wellFormed_db
  cases a with
  | newBatch => exact keeps_newBatch_wellFormed _ _ _ _
  | putNode => exact keeps_putNode_wellFormed trivial _
  | removeNodes => exact keeps_removeNodes_wellFormed trivial _
  | putWriteLog => exact keeps_putWriteLog_wellFormed trivial _ _
  | commit => exact keeps_commit_wellFormed trivial _
  | reset => exact keeps_reset_wellFormed trivial
  | finalize => exact keeps_finalize_ofDb hdb _ _
  | prune version =>
    exact Keeps.mono (F := Frame.pruneGuards) (fun _ _ h => Frame.wellFormed_of_batches h.2.2.2) (keeps_prune_pruneGuards version)
  | startMultipartInsert => exact keeps_startMultipartInsert_ofDb hdb _
  | abortMultipartInsert => exact keeps_cleanMultipartLocked_ofDb hdb _
  | reopen => exact keeps_new_ofDb hdb _

/-- Every batch handle of a reachable state is well formed. -/
theorem reachable_batches_wellFormed {cfg : Config} {s : Sys} (hs : Reachable cfg s) (i : Nat) :
    (s.batches i).WellFormed := by
  induction hs generalizing i with
  | fresh =>
    exact keeps_run_wellFormed (.reopen cfg) ⟨(Sys.empty cfg).db, fun _ => Batch.closed, none⟩
      (fun _ _ => Batch.closed_wellFormed) i trivial
  | @step s c _ _ _ ih =>
    refine keeps_run_wellFormed c.action ⟨s.db, c.action.batchesBefore s.batches, c.fault⟩
      (fun j _ => ?_) i trivial
    unfold Action.batchesBefore
    split
    · exact Batch.closed_wellFormed
    · exact ih j


/-! ## A failed commit -/

/-- A version a batch handle can flush: one from its node batch (a node, a root marker or a
write log, not a deletion), or a restore-log entry. -/
def Entry.FromHandle (e : Entry) : Prop :=
  (e.key.isBatchKey = true ∧ e.value.isSome) ∨ multipartLogPrefix e.key = true

theorem Entry.FromHandle.key_ne {e : Entry} (he : e.FromHandle) {k : Key}
    (hb : k.isBatchKey = false) (hl : multipartLogPrefix k = false) : e.key ≠ k := by
  rintro rfl
  rcases he with ⟨h, -⟩ | h
  · rw [h] at hb; cases hb
  · rw [h] at hl; cases hl

theorem Batch.WellFormed.fromHandle {ba : Batch} (h : ba.WellFormed) :
    ∀ e ∈ ba.bat.writes ++ ba.logWrites, e.FromHandle := by
  intro e he
  rcases List.mem_append.mp he with he | he
  · exact .inl (h.bat e he)
  · obtain ⟨th, rfl⟩ := h.logWrites e he
    exact .inr rfl

/-- A failed `Commit` of a well-formed handle added to the store only versions the handle
flushes: none, or the first of the flushes that `Commit` makes with a working store (its
restore log, or its restore log and its node batch). -/
theorem commit_error_store {id : Nat} {root : Root} {w w' : World} {e : Error}
    (hwf : (w.batches id).WellFormed) (h : (Batch.commit id root).exec w = (.error e, w')) :
    ∃ Y : List Entry, (∀ x ∈ Y, x.FromHandle) ∧
      w'.db = { w.db with store := ⟨Y ++ w.db.store.entries⟩ } ∧
      (Y = [] ∨ ∃ tx wF, (commitPrepare id root).exec { w with fault := none } = (.ok (some tx), wF) ∧
        (Y = (wF.batches id).logWrites ∨
          Y = (wF.batches id).bat.writes ++ (wF.batches id).logWrites)) := by
  rcases commit_error_cases h with h | ⟨tx, w₁, h₁, h₂⟩
  · exact ⟨[], List.forall_mem_nil _, h, .inl rfl⟩
  have hdb : w₁.db = w.db := (keeps_commitPrepare id root).rel_of_exec h₁
  have hwf₁ : (w₁.batches id).WellFormed :=
    (keeps_commitPrepare_wellFormed (P := (· = id)) rfl root).rel_of_exec h₁
      (fun _ hi => hi ▸ hwf) id rfl
  obtain ⟨Y, hY, hst⟩ := commitFlush_error h₂
  refine ⟨Y, ?_, hdb ▸ hst, ?_⟩
  · have hall := hwf₁.fromHandle
    rcases hY with rfl | rfl | rfl
    · exact List.forall_mem_nil _
    · exact fun x hx => hall x (List.mem_append_right _ hx)
    · exact hall
  · rcases hY with rfl | hY
    · exact .inl rfl
    · exact .inr ⟨tx, _, commitPrepare_without_fault id root _ _ _ h₁, hY⟩

/-- A `Commit` call that fails failed in its operation, and the state keeps the database and
the handles the operation left. -/
theorem step_commit_error {s s' : Sys} {id : Nat} {root : Root} {fault : Option Nat} {e : Error}
    (h : step s ⟨.commit id root, fault⟩ = (.error e, s')) :
    ∃ w', (Batch.commit id root).exec (s.world fault) = (.error e, w') ∧
      s' = { s with db := w'.db, batches := w'.batches } := by
  have hc : ∀ cfg, Action.commit id root ≠ .reopen cfg := fun _ => nofun
  rcases hx : (Batch.commit id root).exec (s.world fault) with ⟨_ | _, w'⟩
  · rw [step_of_error hc hx] at h
    obtain ⟨he, rfl⟩ := Prod.mk.inj h
    cases he
    exact ⟨w', rfl, rfl⟩
  · have hr := (step_eq_run (s := s) (c := ⟨.commit id root, fault⟩) hc).1
    rw [h] at hr
    exact absurd (hr.trans (congrArg Prod.fst hx)) nofun

/-- A `Commit` that fails, from a reachable state, leaves `HasRoot` and
`GetRootsForVersion` answering every query as before, and every read of the roots metadata
(the derived-root lists) and of the updated-node records as it was. -/
theorem commit_error_keeps_roots {cfg : Config} {s s' : Sys} (hs : Reachable cfg s) {id : Nat}
    {root : Root} {fault : Option Nat} {e : Error}
    (h : step s ⟨.commit id root, fault⟩ = (.error e, s')) :
    (∀ r v, s'.query (hasRoot r) = s.query (hasRoot r) ∧
      s'.query (getRootsForVersion v) = s.query (getRootsForVersion v)) ∧
    ∀ v t, s'.db.store.get (.rootsMetadata v) t = s.db.store.get (.rootsMetadata v) t ∧
      ∀ th, s'.db.store.get (.rootUpdatedNodes v th) t = s.db.store.get (.rootUpdatedNodes v th) t := by
  obtain ⟨w', hx, rfl⟩ := step_commit_error h
  obtain ⟨Y, hY, hdb, -⟩ := commit_error_store (reachable_batches_wellFormed hs id) hx
  have hget : ∀ k, k.isBatchKey = false → multipartLogPrefix k = false → ∀ t,
      w'.db.store.get k t = s.db.store.get k t := fun k hb hl _ => by
    rw [hdb]
    exact Store.get_append_of_not_visible (fun x hx => .inl ((hY x hx).key_ne hb hl)) _
  exact ⟨fun r v => query_roots_congr ⟨(congrArg Db.ns hdb).trans rfl,
      (congrArg (·.meta.earliestVersion) hdb).trans rfl,
      fun v => hget (.rootsMetadata v) rfl rfl _⟩ r v,
    fun v t => ⟨hget (.rootsMetadata v) rfl rfl t, fun th => hget (.rootUpdatedNodes v th) rfl rfl t⟩⟩

end Mkvs.Badger
