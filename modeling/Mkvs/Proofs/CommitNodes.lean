import Mkvs.Proofs.CommitRoots
import Mkvs.Proofs.Handles
import Mkvs.Proofs.WriteLogSearch

/-!
# The nodes a commit flushes are found

A batch writes its nodes into a write batch at the timestamp of the version it was opened
for (`NewBatch`, `PutNode`), and `Commit` puts the root's marker there too
(`registerRoot`) before it flushes the batch. `GetNode` reads both at the root's version:
the marker first (`checkRoot`), then the node.

The main statement, `batch_commit_serves_nodes`, closes that loop over every reachable
state: a batch opened at the root's version, whose calls succeed, and whose `Commit` of a
root that `HasRoot` did not know succeeds, leaves every node it put readable under that
root.

## Shape of the proof

* `WriteBatch.Carries t E`: the node batch writes at `t` and holds the versions `E`, or it
  is finished. Every call of a batch keeps it, as a frame on the handle's node batch
  (`Frame.bat`), and what a call adds is stated with `Ensures` (`ensures_putNode`,
  `ensures_registerRoot`). A run of the batch's calls carries one version per `PutNode`
  (`run_batchCalls_carries`).
* `Commit` up to its flushes keeps what the batch carried and adds the root's marker
  (`commitPrepare_carries`). A `Commit` that flushes found the batch unfinished, and one that
  resets found the root listed, which `HasRoot` would have reported.
* After the flushes, the batch's versions are the newest at the root's timestamp
  (`Store.latest_of_head`); a node key or a root marker has one value a typed store admits
  (`Key.admits_unique`), so the read sees the batch's value.
-/

namespace Mkvs.Badger

variable {β : Type} {ns : Nat}

/-! ## The node batch of a handle -/

/-- The node batch of handle `id` keeps `Q`. -/
def Frame.bat (Q : WriteBatch → Prop) (id : Nat) : Frame where
  rel w w' := Q (w.batches id).bat → Q (w'.batches id).bat
  refl _ h := h
  trans h₁ h₂ h := h₂ (h₁ h)
  fault _ _ h := h

/-- A node batch that writes at `t` and holds the versions `E`, or a finished one. -/
def WriteBatch.Carries (t : Nat) (E : List Entry) (b : WriteBatch) : Prop :=
  (b.commitTs = t ∧ ∀ e ∈ E, e ∈ b.writes) ∨ b.finished = true

section Carries

variable {t : Nat} {E : List Entry} {b : WriteBatch}

theorem WriteBatch.Carries.cons (h : b.Carries t E) (e : Entry) :
    { b with writes := e :: b.writes }.Carries t E :=
  h.imp (fun h => ⟨h.1, fun x hx => .tail _ (h.2 x hx)⟩) id

theorem WriteBatch.Carries.mono (h : b.Carries t E) {E' : List Entry} (hE : ∀ e ∈ E', e ∈ E) :
    b.Carries t E' :=
  h.imp (fun h => ⟨h.1, fun x hx => h.2 x (hE x hx)⟩) id

/-- A version the batch holds at its own timestamp is carried at `t`. -/
theorem WriteBatch.Carries.add (h : b.Carries t E) {k : Key} {v : Option Value}
    (he : ⟨k, b.commitTs, v⟩ ∈ b.writes) : b.Carries t (⟨k, t, v⟩ :: E) :=
  h.imp (fun ⟨hts, hE⟩ => ⟨hts, fun x hx => by
    rcases List.mem_cons.1 hx with rfl | hx
    · rw [← hts]; exact he
    · exact hE x hx⟩) id

end Carries

section Bat

variable {Q : WriteBatch → Prop} {id : Nat}

theorem keeps_setBatch_bat {ba : Batch} (h : Q ba.bat) :
    Keeps (Frame.bat Q id) (setBatch id ba) := fun _ _ => by
  simpa only [exec_setBatch, if_pos] using h

theorem keeps_getBatch_bind_bat {f : Batch → DbM β}
    (hf : ∀ ba, Q ba.bat → Keeps (Frame.bat Q id) (f ba)) :
    Keeps (Frame.bat Q id) (getBatch id >>= f) := fun w hw => by
  rw [exec_bind, exec_getBatch]
  exact hf _ hw w hw

theorem keeps_batchSet_bind_bat {b : WriteBatch} {k : Key} {v : Value} {f : WriteBatch → DbM β}
    (hf : Keeps (Frame.bat Q id) (f { b with writes := ⟨k, b.commitTs, some v⟩ :: b.writes })) :
    Keeps (Frame.bat Q id) (batchSet b k v >>= f) := fun w => by
  rw [exec_bind]
  have hk := keeps_batchWriteAt (F := Frame.bat Q id) b k (some v) b.commitTs w
  rcases h : (batchWriteAt b k (some v) b.commitTs).exec w with ⟨_ | b', w₁⟩ <;>
    rw [h] at hk <;> simp only [batchSet, h]
  · exact hk
  · rw [batchWriteAt_ok h]
    exact (Frame.bat Q id).trans hk (hf w₁)

theorem ensures_setBatch_bat {ba : Batch} (h : Q ba.bat) :
    Ensures (fun w => Q (w.batches id).bat) (setBatch id ba) := fun _ _ _ hx => by
  simp only [exec_setBatch, Prod.mk.injEq] at hx
  rw [← hx.2]
  simpa only [if_pos] using h

theorem Ensures.batchSet_bind {P : World → Prop} {b : WriteBatch} {k : Key} {v : Value}
    {g : WriteBatch → DbM β}
    (hg : Ensures P (g { b with writes := ⟨k, b.commitTs, some v⟩ :: b.writes })) :
    Ensures P (batchSet b k v >>= g) := fun _ _ _ h => by
  obtain ⟨_, _, h₁, h₂⟩ := exec_bind_ok h
  rw [batchWriteAt_ok h₁] at h₂
  exact hg _ _ _ h₂

/-- A write of the handle's node batch, stored back in the handle, is there at the batch's
timestamp. -/
theorem ensures_batchSet_setBatch (ba : Batch) (k : Key) (v : Value) :
    Ensures (fun w => ⟨k, (w.batches id).bat.commitTs, some v⟩ ∈ (w.batches id).bat.writes)
      (batchSet ba.bat k v >>= fun bat => setBatch id { ba with bat }) :=
  Ensures.batchSet_bind
    (ensures_setBatch_bat (Q := fun b => ⟨k, b.commitTs, some v⟩ ∈ b.writes)
      (List.mem_cons_self _ _))

end Bat

/-! ## The calls of a batch -/

section Calls

variable {t : Nat} {E : List Entry} {id : Nat}

theorem ensures_newBatch_carries (oldRoot : Root) (version : Nat) (chunk : Bool) :
    Ensures (fun w => (w.batches id).bat.Carries (versionToTs version) [])
      (newBatch id oldRoot version chunk) := by
  unfold newBatch
  dsimp only
  repeat' first
    | refine Ensures.ite ?_ ?_
    | refine Ensures.bind_right fun _ => ?_
    | exact ensures_setBatch_bat (.inl ⟨rfl, List.forall_mem_nil _⟩)

theorem keeps_putNode_carries (n : Node) :
    Keeps (Frame.bat (WriteBatch.Carries t E) id) (Batch.putNode id n) := by
  unfold Batch.putNode
  dsimp only
  have tail : Keeps (Frame.bat (WriteBatch.Carries t E) id) (do
      let ba ← getBatch id
      let bat ← batchSet ba.bat (.node n.getHash) (.node n)
      setBatch id { ba with bat }) :=
    keeps_getBatch_bind_bat fun _ hba => keeps_batchSet_bind_bat (keeps_setBatch_bat (hba.cons _))
  refine keeps_getBatch_bind_bat fun _ hba => (keeps_setBatch_bat ?_).bind fun _ => ?_
  · exact hba
  split
  · exact (Keeps.tryCatch ((keeps_txnGet _ _).map _) fun _ => .pure' _).bind fun _ =>
      .ite (keeps_batchSet_bind_bat (keeps_getBatch_bind_bat fun _ hcur =>
        (keeps_setBatch_bat (by exact hcur)).bind fun _ => tail))
        ((Keeps.pure' _).bind fun _ => tail)
  · exact (Keeps.pure' _).bind fun _ => tail

/-- A successful `PutNode` leaves its node in the node batch, at the batch's timestamp. -/
theorem ensures_putNode (n : Node) :
    Ensures (fun w => ⟨.node n.getHash, (w.batches id).bat.commitTs, some (.node n)⟩ ∈
      (w.batches id).bat.writes) (Batch.putNode id n) := by
  unfold Batch.putNode
  dsimp only
  repeat' with_reducible first
    | exact Ensures.bind_right fun ba => ensures_batchSet_setBatch ba _ _
    | refine Ensures.bind_right fun _ => ?_
    | refine Ensures.ite ?_ ?_
    | split

theorem keeps_removeNodes_carries (hs : List Hash) :
    Keeps (Frame.bat (WriteBatch.Carries t E) id) (Batch.removeNodes id hs) := by
  unfold Batch.removeNodes
  refine keeps_getBatch_bind_bat fun _ hba => ?_
  repeat' with_reducible first
    | exact .pure' _ | exact .throw' _ | exact keeps_setBatch_bat hba
    | refine .bind ?_ fun _ => ?_
    | refine .ite ?_ ?_

theorem keeps_putWriteLog_carries (wl : Option WriteLog) (ann : Option Annotations) :
    Keeps (Frame.bat (WriteBatch.Carries t E) id) (Batch.putWriteLog id wl ann) := by
  unfold Batch.putWriteLog
  refine keeps_getBatch_bind_bat fun _ hba => ?_
  repeat' with_reducible first
    | exact .pure' _ | exact .throw' _ | exact keeps_getDb | exact keeps_setBatch_bat hba
    | refine .bind ?_ fun _ => ?_
    | refine .ite ?_ ?_

/-- The versions the `PutNode` calls of `ops` write into a node batch at `t`. -/
def putEntries (t : Nat) : List BatchOp → List Entry
  | [] => []
  | .putNode n :: ops => ⟨.node n.getHash, t, some (.node n)⟩ :: putEntries t ops
  | _ :: ops => putEntries t ops

theorem mem_putEntries {n : Node} {ops : List BatchOp} (h : .putNode n ∈ ops) :
    ⟨.node n.getHash, t, some (.node n)⟩ ∈ putEntries t ops := by
  induction ops with
  | nil => cases h
  | cons op ops ih =>
    rcases List.mem_cons.1 h with rfl | h'
    · exact List.mem_cons_self _ _
    · cases op <;> first | exact .tail _ (ih h') | exact ih h'

/-- A successful call of a batch keeps what its node batch carries, and a `PutNode` adds its
node. -/
theorem step_batchOp_carries {s s' : Sys} (op : BatchOp)
    (h : step s ⟨op.action id, none⟩ = (.ok (), s')) (hs : (s.batches id).bat.Carries t E) :
    (s'.batches id).bat.Carries t (putEntries t [op] ++ E) := by
  obtain ⟨w, hx, -, hb⟩ := exec_of_step (op.action_ne_reopen id) h
  rw [hb]
  cases op with
  | putNode n =>
    exact ((keeps_putNode_carries n).rel_of_exec hx hs).add (ensures_putNode n _ _ _ hx)
  | removeNodes hs' => exact (keeps_removeNodes_carries hs').rel_of_exec hx hs
  | putWriteLog wl ann => exact (keeps_putWriteLog_carries wl ann).rel_of_exec hx hs

theorem run_opCalls_carries (id t : Nat) : ∀ (ops : List BatchOp) (s : Sys) (E : List Entry),
    (s.batches id).bat.Carries t E → (∀ r ∈ (run s (opCalls id ops)).1, r = .ok ()) →
      ((run s (opCalls id ops)).2.batches id).bat.Carries t (putEntries t ops ++ E)
  | [], _, _, h, _ => h
  | op :: ops, s, E, h, hok => by
    have h₁ := step_batchOp_carries op (Prod.ext (hok _ (List.mem_cons_self _ _)) rfl) h
    refine (run_opCalls_carries id t ops _ _ h₁ fun r hr => hok r (.tail _ hr)).mono
      fun e he => ?_
    cases op <;> simp only [putEntries, List.nil_append, List.cons_append, List.mem_cons,
      List.mem_append] at he ⊢ <;> tauto

/-- A batch whose calls all succeed carries, at the timestamp of its version, every node its
`PutNode` calls put. -/
theorem run_batchCalls_carries {s : Sys} {oldRoot : Root} {version : Nat} {chunk : Bool}
    {ops : List BatchOp}
    (hok : ∀ r ∈ (run s (batchCalls id oldRoot version chunk ops)).1, r = .ok ()) :
    ((run s (batchCalls id oldRoot version chunk ops)).2.batches id).bat.Carries
      (versionToTs version) (putEntries (versionToTs version) ops) := by
  obtain ⟨w, hx, -, hb⟩ := exec_of_step (a := .newBatch id oldRoot version chunk) nofun
    (Prod.ext (hok _ (List.mem_cons_self _ _)) rfl)
  have h := run_opCalls_carries id (versionToTs version) ops _ []
    (hb ▸ ensures_newBatch_carries oldRoot version chunk _ _ _ hx) fun r hr => hok r (.tail _ hr)
  rwa [List.append_nil] at h

end Calls

/-! ## `Commit` up to its flushes -/

section Prepare

variable {t : Nat} {E : List Entry} {id : Nat}

theorem keeps_reset_carries : Keeps (Frame.bat (WriteBatch.Carries t E) id) (Batch.reset id) :=
  keeps_getBatch_bind_bat fun _ _ => keeps_setBatch_bat (.inr rfl)

theorem keeps_commitLinks_carries (root : Root) (rootHash : TypedHash) (tx : Txn) :
    Keeps (Frame.bat (WriteBatch.Carries t E) id) (Batch.commitLinks id root rootHash tx) := by
  unfold Batch.commitLinks
  dsimp only
  refine keeps_getBatch_bind_bat fun _ hba => ?_
  repeat' with_reducible first
    | exact .pure' _ | exact keeps_linkOldRoot _ _ _ _ | exact keeps_txnSet _ _ _
    | exact keeps_setBatch_bat (hba.cons _)
    | refine keeps_batchSet_bind_bat ?_
    | refine .bind ?_ fun _ => ?_
    | refine .ite ?_ ?_
    | split

theorem keeps_registerRoot_carries (rootHash : TypedHash) :
    Keeps (Frame.bat (WriteBatch.Carries t E) id) (Batch.registerRoot id rootHash) := by
  unfold Batch.registerRoot
  refine keeps_getBatch_bind_bat fun _ hba =>
    keeps_batchSet_bind_bat ((keeps_setBatch_bat (hba.cons _)).bind fun _ => ?_)
  split
  · exact keeps_batchSet_bind_bat (keeps_getBatch_bind_bat fun _ h => keeps_setBatch_bat h)
  · exact .pure' _

/-- A successful `registerRoot` leaves the root's marker in the node batch. -/
theorem ensures_registerRoot (rootHash : TypedHash) :
    Ensures (fun w => ⟨.rootNode rootHash, (w.batches id).bat.commitTs, some .empty⟩ ∈
      (w.batches id).bat.writes) (Batch.registerRoot id rootHash) := by
  unfold Batch.registerRoot
  refine Ensures.bind_right fun _ => Ensures.batchSet_bind (Ensures.bind_left
    (F := Frame.bat (fun b => ⟨.rootNode rootHash, b.commitTs, some .empty⟩ ∈ b.writes) id)
    (fun _ _ hq hr => hr hq) (ensures_setBatch_bat
      (Q := fun b => ⟨.rootNode rootHash, b.commitTs, some .empty⟩ ∈ b.writes)
      (List.mem_cons_self _ _)) fun _ => ?_)
  split
  · exact keeps_batchSet_bind_bat (keeps_getBatch_bind_bat fun _ h => keeps_setBatch_bat h)
  · exact .pure' _

/-- `Commit` up to its flushes leaves the node batch carrying what it carried and the root's
marker, or finished. -/
theorem commitPrepare_carries {root : Root} {w w₁ : World} {o : Option Txn}
    (h : (commitPrepare id root).exec w = (.ok o, w₁)) (hw : (w.batches id).bat.Carries t E) :
    (w₁.batches id).bat.Carries t
      (⟨.rootNode (TypedHash.fromRoot root), t, some .empty⟩ :: E) := by
  unfold commitPrepare at h
  dsimp only at h
  obtain ⟨_, _, h₂, h⟩ := exec_bind_ok h
  obtain ⟨_, _, h₃, h⟩ := exec_bind_ok h
  obtain ⟨_, _, h₄, h⟩ := exec_bind_ok h
  obtain ⟨_, w₅, h₅, h⟩ := exec_bind_ok h
  let F := Frame.bat (WriteBatch.Carries t E) id
  have hw₄ := (keeps_loadRootsMetadata (F := F) _ _).rel_of_exec h₄
    ((keeps_commitChecks (F := F) _ _).rel_of_exec h₃
      ((keeps_getBatch (F := F) _).rel_of_exec h₂ hw))
  have hw₅ := ((keeps_registerRoot_carries _).rel_of_exec h₅ hw₄).add
    (ensures_registerRoot _ _ _ _ h₅)
  refine Keeps.rel_of_exec (F := Frame.bat (WriteBatch.Carries t _) id) ?_ h hw₅
  repeat' with_reducible first
    | exact .pure' _ | exact keeps_getBatch _ | exact keeps_save _ _ | exact keeps_txnSet _ _ _
    | exact keeps_reset_carries | exact keeps_commitLinks_carries _ _ _
    | refine .bind ?_ fun _ => ?_
    | refine .ite ?_ ?_

end Prepare

/-! ## Reads after the flushes -/

/-- A read at `t` of a key that a head block of versions writes at `t`, with one value,
sees that value, whatever the older versions are. -/
theorem Store.latest_of_head {A : List Entry} {k : Key} {t : Nat} {v : Option Value}
    (hmem : ⟨k, t, v⟩ ∈ A) (huni : ∀ e ∈ A, e.key = k → e.ts = t → e.value = v)
    (B : List Entry) : Store.latest ⟨A ++ B⟩ k t = some (t, v) := by
  induction A with
  | nil => cases hmem
  | cons e A ih =>
    rw [List.cons_append, Store.latest_cons, pickLatest]
    rcases List.mem_cons.1 hmem with rfl | hmem
    · have hle : (Store.latest ⟨A ++ B⟩ k t).all (·.1 ≤ t) = true := by
        rcases hl : Store.latest ⟨A ++ B⟩ k t with _ | ⟨ts, u⟩
        · rfl
        · simpa using (Store.latest_le hl).1
      rw [if_pos ⟨rfl, le_rfl, hle⟩]
    · rw [ih hmem fun e' he' => huni e' (.tail _ he')]
      split_ifs with hc
      · obtain ⟨hk, hts, hle⟩ := hc
        have het : e.ts = t := le_antisymm hts (by simpa using hle)
        rw [het, huni e (List.mem_cons_self _ _) hk het]
      · rfl

/-- After `Commit`'s flushes, a read at a version timestamp `t` of a key that the node batch
writes at `t`, with one value, sees that value. -/
theorem Store.get_commitAt_flushed {tx : Txn} {bat : WriteBatch} {L S : List Entry} {k : Key}
    {t : Nat} {v : Value} (ht : tsMetadata < t) (hmem : ⟨k, t, some v⟩ ∈ bat.writes)
    (huni : ∀ e ∈ bat.writes, e.key = k → e.ts = t → e.value = some v) :
    (Store.commitAt ⟨bat.writes ++ (L ++ S)⟩ tx tsMetadata).get k t = some (t, v) := by
  rw [Store.get, Store.commitAt, ← List.append_assoc, Store.latest_of_head
    (List.mem_append_right _ hmem) fun e he hk het => ?_]
  rcases List.mem_append.1 he with he | he
  · obtain ⟨_, -, rfl⟩ := List.mem_map.1 he
    exact absurd het (Nat.ne_of_lt ht)
  · exact huni e he hk het

/-- A node key admits only the node of its hash, and a root marker only the empty value. -/
theorem Key.admits_unique {k : Key} (hk : (∃ h, k = .node h) ∨ ∃ th, k = .rootNode th)
    {v v' : Value} (hv : k.admits ns v = true) (hv' : k.admits ns v' = true) : v = v' := by
  rcases hk with ⟨h, rfl⟩ | ⟨th, rfl⟩ <;> cases v <;> cases v' <;>
    simp_all only [Key.admits, beq_iff_eq, Bool.false_eq_true]
  exact congrArg _ (Node.getHash_injective (hv.trans hv'.symm))

/-- `GetNode` returns the node a read at the root's version finds, once the root's marker is
there. -/
theorem getNode_of_get {w : World} (hf : w.fault = none) {root : Root} (hns : root.ns = w.db.ns)
    (he : w.db.meta.earliestVersion ≤ root.version)
    (hroot : (w.db.store.get (.rootNode (TypedHash.fromRoot root))
      (versionToTs root.version)).isSome)
    {h : Hash} {ts : Nat} {n : Node}
    (hn : w.db.store.get (.node h) (versionToTs root.version) = some (ts, .node n)) :
    ((getNode root h).exec w).1 = .ok n := by
  simp only [getNode, exec_bind, sanityCheckNamespace_exec hns, exec_getDb, exec_ite,
    Nat.not_lt.2 he, if_false, checkRoot_exec hf hroot, txnGet_new_exec hf, hn, exec_pure]

/-! ## After a successful `Commit` -/

/-- After a successful `Commit` that adds `root` to an open reachable database, every node
that the handle's node batch carried at the root's version is what `GetNode` returns under
the root. -/
theorem commit_serves_carried {cfg : Config} {s s' : Sys} (hs : Reachable cfg s)
    (ho : s.isOpen = true) {id : Nat} {root : Root} {fault : Option Nat}
    (hnew : s.query (hasRoot root) = .ok false) {E : List Entry}
    (hcar : (s.batches id).bat.Carries (versionToTs root.version) E)
    (h : step s ⟨.commit id root, fault⟩ = (.ok (), s')) {n : Node}
    (hn : ⟨.node n.getHash, versionToTs root.version, some (.node n)⟩ ∈ E) :
    s'.query (getNode root n.getHash) = .ok n := by
  have hc : ∀ cfg, Action.commit id root ≠ .reopen cfg := fun _ => nofun
  obtain ⟨w', hx, hdb, -⟩ := exec_of_step hc h
  have hT := reachable_typed hs
  have hst : ∀ e ∈ s.db.store.entries, e.typed cfg.ns = true := (hT.world_of fault).store
  have hst' : ∀ e ∈ s'.db.store.entries, e.typed cfg.ns = true := by
    have hok := (typedSpec_commit id root (s.world fault) ⟨hT.world_of fault, hT.meta ho⟩).1
    rw [show (Batch.commit id root).exec (s.world fault) = (.ok (), w') from hx] at hok
    exact hdb ▸ hok.1.store
  have hprep := spec_commitPrepare_listed s.db id root (s.world fault) rfl
  rcases commit_ok_cases hx with h₁ | ⟨tx, w₁, h₁, h₂⟩
  · -- a `Commit` that resets found the root listed, where `HasRoot` finds it
    rw [h₁] at hprep
    obtain ⟨-, hQ⟩ := hprep
    obtain ⟨⟨hrns, hlt⟩, hl, hts⟩ :
      _ ∧ Listed s.db _ _ (Txn.new (versionToTs root.version)) := hQ _ rfl
    rw [Txn.view_new, Store.get_meta hst (k := .rootsMetadata root.version)
      (t := versionToTs root.version) rfl hts] at hl
    rw [(query_listed hrns ((hT.meta ho).2.2.earliest_le hlt) hl).1] at hnew
    cases hnew
  rw [h₁] at hprep
  obtain ⟨hw₁ : w₁.db = s.db, hQ⟩ := hprep
  obtain ⟨⟨hrns, hlt⟩, -⟩ := hQ _ rfl
  have hwf₁ : (w₁.batches id).WellFormed :=
    (keeps_commitPrepare_wellFormed (P := (· = id)) rfl root).rel_of_exec h₁
      (fun i _ => reachable_batches_wellFormed hs i) id rfl
  obtain ⟨-, hE⟩ := (commitPrepare_carries h₁ hcar).resolve_right
    (by simp [(commitFlush_ok_unfinished h₂).1])
  have hw' := hdb.trans (commitFlush_ok h₂)
  -- a read at the root's version of a key the node batch writes with one value
  have hget {k : Key} (hk : (∃ h, k = .node h) ∨ ∃ th, k = .rootNode th) {v : Value}
      (hv : k.admits cfg.ns v = true)
      (hmem : ⟨k, versionToTs root.version, some v⟩ ∈ (w₁.batches id).bat.writes) :
      s'.db.store.get k (versionToTs root.version) = some (versionToTs root.version, v) := by
    rw [hw', hw₁, Store.flush]
    refine Store.get_commitAt_flushed (by simp [tsMetadata, versionToTs]) hmem
      fun e he hek _ => ?_
    obtain ⟨v', hv'⟩ := Option.isSome_iff_exists.1 (hwf₁.bat e he).2
    have htw := Entry.typed_write
      (hst' e (by rw [hw', hw₁]; simp [Store.commitAt, Store.flush, he]))
    rw [hv', hek] at htw
    rw [hv', Key.admits_unique hk htw hv]
  have hmeta : s'.db.ns = s.db.ns ∧ s'.db.meta = s.db.meta := by
    rw [hw', hw₁]; exact ⟨rfl, rfl⟩
  exact getNode_of_get rfl (hmeta.1 ▸ hrns) (hmeta.2 ▸ (hT.meta ho).2.2.earliest_le hlt)
    (by show (s'.db.store.get _ _).isSome
        rw [hget (.inr ⟨_, rfl⟩) (v := .empty) rfl (hE _ (List.mem_cons_self _ _))]; rfl)
    (hget (.inl ⟨_, rfl⟩) (by simp [Key.admits]) (hE _ (.tail _ hn)))

/-- A run of calls other than `New`, each well formed, keeps an open reachable state open
and reachable. -/
theorem reachable_run {cfg : Config} : ∀ {cs : List Call} {s : Sys}, Reachable cfg s →
    s.isOpen = true →
      (∀ c ∈ cs, c.action.WellFormed ∧ ∀ cfg', c.action ≠ .reopen cfg') →
      Reachable cfg (run s cs).2 ∧ (run s cs).2.isOpen = true
  | [], _, hs, ho, _ => ⟨hs, ho⟩
  | ⟨a, f⟩ :: cs, s, hs, ho, hc => by
    obtain ⟨hwf, hne⟩ := hc _ (List.mem_cons_self _ _)
    have ho' : (step s ⟨a, f⟩).2.isOpen = true := by
      cases a <;> first | exact ho | exact absurd rfl (hne _)
    have ih := reachable_run (.step _ hs hwf (.inl ho)) ho' fun c hc' => hc c (.tail _ hc')
    exact ih

/-- A batch opened at the root's version on an open reachable database, whose calls all
succeed, and whose `Commit` of a root that `HasRoot` did not know succeeds, leaves every node
it put readable: `GetNode` under the root returns it. -/
theorem batch_commit_serves_nodes {cfg : Config} {s s₁ s₂ : Sys} (hs : Reachable cfg s)
    (ho : s.isOpen = true) {id : Nat} {oldRoot root : Root} {chunk : Bool} {ops : List BatchOp}
    {rs : List (Except Error Unit)} (hv : oldRoot.version < 2 ^ 64 ∧ root.version < 2 ^ 64)
    (hrun : run s (batchCalls id oldRoot root.version chunk ops) = (rs, s₁))
    (hok : ∀ r ∈ rs, r = .ok ()) (hnew : s.query (hasRoot root) = .ok false)
    {fault : Option Nat} (h : step s₁ ⟨.commit id root, fault⟩ = (.ok (), s₂)) {n : Node}
    (hn : .putNode n ∈ ops) :
    s₂.query (getNode root n.getHash) = .ok n := by
  have hwf : ∀ c ∈ batchCalls id oldRoot root.version chunk ops,
      c.action.WellFormed ∧ ∀ cfg', c.action ≠ .reopen cfg' := by
    intro c hc
    rcases List.mem_cons.1 hc with rfl | hc
    · exact ⟨hv, nofun⟩
    · obtain ⟨op, -, rfl⟩ := List.mem_map.1 hc
      exact ⟨by cases op <;> trivial, op.action_ne_reopen id⟩
  have hok' : ∀ r ∈ (run s (batchCalls id oldRoot root.version chunk ops)).1, r = .ok () := by
    rwa [hrun]
  obtain ⟨hs₁, ho₁⟩ := reachable_run hs ho hwf
  have hdb := (run_batchCalls_wellFormed (hok' _ (List.mem_cons_self _ _)) ops).1
  have hcar := run_batchCalls_carries hok'
  rw [hrun] at hs₁ ho₁ hdb hcar
  have hnew₁ : s₁.query (hasRoot root) = .ok false := by
    rw [(query_roots_congr (s := s) ⟨by rw [hdb], by rw [hdb], fun _ => by rw [hdb]⟩ root 0).1,
      hnew]
  exact commit_serves_carried hs₁ ho₁ hnew₁ hcar h (mem_putEntries hn)

theorem batch_commit_serves_nodes_leaf :
    (Reachable ⟨7, false, false⟩ (Sys.fresh ⟨7, false, false⟩) ∧
      (Sys.fresh ⟨7, false, false⟩).isOpen = true ∧
      ((⟨7, 0, .state, 0⟩ : Root).version < 2 ^ 64 ∧ leafRoot.version < 2 ^ 64) ∧
      run (Sys.fresh ⟨7, false, false⟩)
          (batchCalls 0 ⟨7, 0, .state, 0⟩ leafRoot.version false [.putNode (.leaf 1 10)]) =
        ([.ok (), .ok ()], leafPut) ∧
      (∀ r ∈ ([.ok (), .ok ()] : List (Except Error Unit)), r = .ok ()) ∧
      (Sys.fresh ⟨7, false, false⟩).query (hasRoot leafRoot) = .ok false ∧
      step leafPut ⟨.commit 0 leafRoot, none⟩ = (.ok (), leafCommitted) ∧
      BatchOp.putNode (.leaf 1 10) ∈ [BatchOp.putNode (.leaf 1 10)]) ∧
    leafCommitted.query (getNode leafRoot (Node.leaf 1 10).getHash) = .ok (.leaf 1 10) :=
  have hrun : run (Sys.fresh ⟨7, false, false⟩)
      (batchCalls 0 ⟨7, 0, .state, 0⟩ leafRoot.version false [.putNode (.leaf 1 10)]) =
        ([.ok (), .ok ()], leafPut) := Prod.ext (by decide) rfl
  have hok : ∀ r ∈ ([.ok (), .ok ()] : List (Except Error Unit)), r = .ok () := by decide
  have hnew : (Sys.fresh ⟨7, false, false⟩).query (hasRoot leafRoot) = .ok false := by decide
  ⟨⟨.fresh, rfl, ⟨by decide, by decide⟩, hrun, hok, hnew, step_leafPut,
      List.mem_singleton_self _⟩,
    batch_commit_serves_nodes .fresh rfl ⟨by decide, by decide⟩ hrun hok hnew step_leafPut
      (List.mem_singleton_self _)⟩

end Mkvs.Badger
