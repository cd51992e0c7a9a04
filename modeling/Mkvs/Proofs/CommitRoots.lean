import Mkvs.Proofs.Reads

/-!
# A committed root is found

`Commit` (`badgerBatch.Commit`) records a new root in the roots metadata of its version: it
loads that record in a transaction read at the version's timestamp, adds the root when it is
not there yet, and commits the transaction at the metadata timestamp after both write
batches are flushed. `HasRoot` and `GetRootsForVersion` read the same record.

The main statement, `commit_registers_root`, closes that loop over every reachable state:
after a `Commit` of `root` that succeeds on an open database, `HasRoot root` is true and
`GetRootsForVersion root.version` lists `root`, whether the call added the root or found it
already there.

## Shape of the proof

* `Txn.view` is what a transaction reads of a key: its own last pending write, or else the
  store's version at its read timestamp. `spec_txnGet_view` says a transactional read returns
  it.
* `Listed` is the invariant of `Commit`'s metadata transaction: its view of the roots
  metadata of the version lists the root's typed hash. Each step of `commitPrepare` keeps it
  (`spec_linkOldRoot_listed`, `spec_commitLinks_listed`), and the step that adds the root
  establishes it (`spec_commitPrepare_listed`).
* The store invariant of `Mkvs.Proofs.Typing` keeps metadata keys at the metadata timestamp
  only, so a read of them at any later timestamp sees what a read at the metadata timestamp
  sees (`Store.get_meta`). The versions a handle flushes hold no roots metadata, so after
  `commitAt` the read sees exactly the transaction's view (`get_rootsMetadata_commitAt`).
* The checks of `Commit` put the root above the last finalized version, hence, by the version
  bounds a reachable database keeps, at or above the earliest; `query_listed` then computes
  both reads.
-/

namespace Mkvs.Badger

variable {ns : Nat}

/-! ## Reads of metadata keys and of a committed transaction -/

/-- Where every version of `k` is at the metadata timestamp, a read of `k` at any later
timestamp picks what a read at the metadata timestamp picks. -/
theorem Store.latest_meta {es : List Entry} {k : Key}
    (hs : ∀ e ∈ es, e.key = k → e.ts = tsMetadata) {t : Nat} (ht : tsMetadata ≤ t) :
    Store.latest ⟨es⟩ k t = Store.latest ⟨es⟩ k tsMetadata := by
  induction es with
  | nil => rfl
  | cons e es ih =>
    rw [Store.latest_cons, Store.latest_cons, ih fun e' he' => hs e' (.tail _ he')]
    unfold pickLatest
    by_cases hk : e.key = k
    · simp [hk, hs e (.head _) hk, ht]
    · simp [hk]

/-- In a typed store a metadata key reads the same at every timestamp from the metadata
timestamp on. -/
theorem Store.get_meta {s : Store} (hs : ∀ e ∈ s.entries, e.typed ns = true) {k : Key}
    (hk : k.isMeta = true) {t : Nat} (ht : tsMetadata ≤ t) : s.get k t = s.get k tsMetadata := by
  obtain ⟨es⟩ := s
  simp only [Store.get,
    Store.latest_meta (fun e he hek => Entry.typed_ts (hs e he) (hek ▸ hk)) ht]

/-- The pending writes of a transaction, put at one timestamp, read back as their last write
of the key. -/
theorem Store.latest_pending {ts t : Nat} (ht : ts ≤ t) (p : List (Key × Option Value))
    (k : Key) :
    Store.latest ⟨p.map fun w => ⟨w.1, ts, w.2⟩⟩ k t = (p.lookup k).map (ts, ·) := by
  induction p with
  | nil => rfl
  | cons w p ih =>
    obtain ⟨k', v⟩ := w
    rw [List.map_cons, Store.latest_cons, ih, pickLatest, List.lookup_cons]
    by_cases hk : k' = k
    · subst hk
      rcases p.lookup k' with _ | v' <;> simp [ht]
    · have : (k == k') = false := by simpa using Ne.symm hk
      simp [hk, this]

theorem Store.get_map_snd (s : Store) (k : Key) (t : Nat) :
    (s.get k t).map Prod.snd = (s.latest k t).bind Prod.snd := by
  unfold Store.get
  rcases s.latest k t with _ | ⟨ts, _ | v⟩ <;> rfl

/-- A transaction committed at the metadata timestamp reads back, at that timestamp, as its
pending write of the key, and otherwise as the store read before. -/
theorem Store.get_commitAt (st : Store) (tx : Txn) (k : Key) :
    ((st.commitAt tx tsMetadata).get k tsMetadata).map Prod.snd =
      match tx.pending.lookup k with
      | some v => v
      | none => (st.get k tsMetadata).map Prod.snd := by
  obtain ⟨es⟩ := st
  rw [Store.get_map_snd, Store.get_map_snd, Store.commitAt, Store.latest_append_newer,
    Store.latest_pending le_rfl]
  rcases tx.pending.lookup k with _ | v
  · rfl
  · have hle : (Store.latest ⟨es⟩ k tsMetadata).all (·.1 ≤ tsMetadata) = true := by
      rcases h : Store.latest ⟨es⟩ k tsMetadata with _ | ⟨ts, u⟩
      · rfl
      · simpa using (Store.latest_le h).1
    simp [newer, hle]

/-! ## What a transaction sees -/

/-- What a transaction reads of `k`: its last pending write of `k`, or else the store's
version at its read timestamp. -/
def Txn.view (tx : Txn) (st : Store) (k : Key) : Option Value :=
  match tx.pending.lookup k with
  | some v => v
  | none => (st.get k tx.readTs).map Prod.snd

@[simp] theorem Txn.view_cons_self (tx : Txn) (st : Store) (k : Key) (v : Option Value) :
    { tx with pending := (k, v) :: tx.pending }.view st k = v := by
  simp [Txn.view, List.lookup_cons]

theorem Txn.view_cons_ne (tx : Txn) (st : Store) {k k' : Key} (h : k' ≠ k) (v : Option Value) :
    { tx with pending := (k', v) :: tx.pending }.view st k = tx.view st k := by
  have : (k == k') = false := by simpa using Ne.symm h
  simp [Txn.view, List.lookup_cons, this]

@[simp] theorem Txn.view_new (ts : Nat) (st : Store) (k : Key) :
    (Txn.new ts).view st k = (st.get k ts).map Prod.snd := rfl

/-- A read of the roots metadata that lists the typed hash `th`. -/
def listsRoot (th : TypedHash) : Option Value → Bool
  | some (.rootsMetadata roots) => (roots.lookup th).isSome
  | _ => false

/-! ## Roots in the roots metadata -/

theorem isSome_lookup_iff {l : List (TypedHash × List TypedHash)} {th : TypedHash} :
    (l.lookup th).isSome = true ↔ th ∈ l.map Prod.fst := by
  induction l with
  | nil => simp
  | cons e l ih =>
    obtain ⟨k, v⟩ := e
    by_cases h : th = k
    · simp [List.lookup_cons, h]
    · have : (th == k) = false := by simpa using h
      simp [List.lookup_cons, this, ih, h]

/-- `setRoot` lists its hash and keeps every hash listed before. -/
theorem lookup_setRoot (roots : List (TypedHash × List TypedHash)) (h : TypedHash)
    (l : List TypedHash) {th : TypedHash} :
    ((setRoot roots h l).lookup th).isSome = true ↔
      th = h ∨ (roots.lookup th).isSome = true := by
  simp only [isSome_lookup_iff, setRoot]
  split
  · rename_i hh
    have hfst : (fun e : TypedHash × List TypedHash => (if e.1 = h then (h, l) else e).1) =
        Prod.fst := funext fun e => by split_ifs with he <;> simp [he]
    rw [List.map_map, Function.comp_def, hfst]
    exact ⟨.inr, fun h' => h'.elim (· ▸ hh) id⟩
  · simp [or_comm]

/-! ## `Commit` up to its flushes

Until its flushes, `Commit` does not change the database; each spec below takes it fixed as
`d`. -/

section OnDb

variable (d : Db)

theorem spec_onDb {α : Type} {x : DbM α} (hx : Keeps Frame.db x) :
    Spec (·.db = d) x fun _ => True :=
  Spec.of_keeps (F := Frame.db) (fun _ _ h h' => h'.trans h) hx

/-- A read of a transaction returns what the transaction sees. -/
theorem spec_txnGet_view (tx : Txn) (k : Key) :
    Spec (·.db = d) (txnGet tx k) fun r => r.map Prod.snd = tx.view d.store k := fun w hw => by
  refine ⟨(keeps_txnGet (F := Frame.db) tx k w).trans hw, fun r hr => ?_⟩
  unfold txnGet at hr
  simp only [exec_bind, exec_ite, exec_throw, exec_pure] at hr
  split at hr
  · cases hr
  rcases htk : tick.exec w with ⟨_ | _, w₁⟩ <;> rw [htk] at hr
  · cases hr
  have hdb : w₁.db = d := (tick_ok htk).1.trans hw
  unfold Txn.view
  dsimp only at hr
  split at hr <;> rename_i hl <;>
    simp only [hl, exec_bind, exec_getDb, exec_pure, Except.ok.injEq] at hr ⊢ <;> rw [← hr]
  · rfl
  · rfl
  · rw [hdb]

/-- What the checks of `Commit` let through: a root of the database's namespace, above the
last finalized version. -/
theorem spec_commitChecks (ba : Batch) (root : Root) :
    Spec (·.db = d) (Batch.commitChecks ba root) fun _ =>
      root.ns = d.ns ∧ ∀ l, d.meta.lastFinalizedVersion = some l → l < root.version := by
  intro w hw
  refine ⟨(keeps_commitChecks (F := Frame.db) ba root w).trans hw, fun _ h => ?_⟩
  subst hw
  unfold Batch.commitChecks sanityCheckNamespace at h
  simp only [exec_bind, exec_getDb, exec_ite, exec_throw, exec_pure] at h
  by_cases hns : root.ns = w.db.ns
  · refine ⟨hns, fun l hl => ?_⟩
    simp only [hns, ne_eq, not_true_eq_false, if_false, hl] at h
    split_ifs at h <;> simp_all
  · simp only [hns, ne_eq, not_false_eq_true, if_true] at h
    split_ifs at h

/-- `loadRootsMetadata` returns the record of `v` the transaction sees, or an empty record of
`v` where it sees none. -/
theorem spec_loadRootsMetadata_view (tx : Txn) (v : Nat) :
    Spec (·.db = d) (loadRootsMetadata tx v) fun rm => rm.version = v ∧
      (tx.view d.store (.rootsMetadata v) = some (.rootsMetadata rm.roots) ∨
        (tx.view d.store (.rootsMetadata v) = none ∧ rm.roots = [])) := by
  unfold loadRootsMetadata
  refine (spec_txnGet_view d tx _).bind fun r hr => ?_
  split
  · exact Spec.pure' ⟨rfl, .inr ⟨hr.symm, rfl⟩⟩
  · exact Spec.pure' ⟨rfl, .inl hr.symm⟩
  · exact Spec.throw' _

theorem spec_txnSet_eq (tx : Txn) (k : Key) (v : Value) :
    Spec (·.db = d) (txnSet tx k v) (· = { tx with pending := (k, some v) :: tx.pending }) :=
  (spec_onDb d keeps_tick).bind' fun _ => Spec.pure' rfl

/-- What `Commit`'s metadata transaction has to keep: it lists `rootHash` in its view of
the roots metadata of `version`, and it reads at or above the metadata timestamp. -/
def Listed (rootHash : TypedHash) (version : Nat) (tx : Txn) : Prop :=
  listsRoot rootHash (tx.view d.store (.rootsMetadata version)) = true ∧ tsMetadata ≤ tx.readTs

theorem Listed.txnSet {rootHash : TypedHash} {version : Nat} {tx : Txn}
    (h : Listed d rootHash version tx) {k : Key} (hk : k ≠ .rootsMetadata version)
    (v : Option Value) : Listed d rootHash version { tx with pending := (k, v) :: tx.pending } :=
  ⟨by rw [Txn.view_cons_ne _ _ hk]; exact h.1, h.2⟩

theorem Listed.save (tx : Txn) (hts : tsMetadata ≤ tx.readTs) {rootHash : TypedHash}
    (version : Nat) {roots : List (TypedHash × List TypedHash)}
    (h : (roots.lookup rootHash).isSome = true) :
    Listed d rootHash version
      { tx with pending := (.rootsMetadata version, some (.rootsMetadata roots)) :: tx.pending } :=
  ⟨by rw [Txn.view_cons_self]; exact h, hts⟩

/-- Linking the old root keeps the new root listed; when both roots are of one version,
`setRoot` on the record keeps it. -/
theorem spec_linkOldRoot_listed (oldRoot : Root) (rootHash : TypedHash) (version : Nat)
    {tx : Txn} (hl : Listed d rootHash version tx) :
    Spec (·.db = d) (Batch.linkOldRoot oldRoot rootHash version tx)
      (Listed d rootHash version) := by
  unfold Batch.linkOldRoot
  dsimp only
  refine (spec_onDb d keeps_getDb).bind' fun _ => Spec.ite_throw ?_
  refine (spec_loadRootsMetadata_view d tx _).bind fun orm ⟨hver, horm⟩ => ?_
  split
  · exact Spec.throw' _
  · refine (spec_txnSet_eq d _ _ _).mono fun tx' htx' => ?_
    subst htx'
    simp only [hver]
    by_cases hv : oldRoot.version = version
    · subst hv
      refine ⟨?_, hl.2⟩
      have hlist := hl.1
      rcases horm with h | ⟨h, -⟩ <;> rw [h] at hlist
      · simp only [Txn.view_cons_self, listsRoot] at hlist ⊢
        exact (lookup_setRoot _ _ _).2 (.inr hlist)
      · cases hlist
    · exact hl.txnSet d (by simpa using hv) _

/-- The writes of a normal `Commit` after the root is listed keep it listed. -/
theorem spec_commitLinks_listed (id : Nat) (root : Root) (rootHash : TypedHash) {tx : Txn}
    (hl : Listed d rootHash root.version tx) :
    Spec (·.db = d) (Batch.commitLinks id root rootHash tx) (Listed d rootHash root.version) := by
  unfold Batch.commitLinks
  refine (spec_onDb d (keeps_getBatch _)).bind' fun ba => ?_
  dsimp only
  refine Spec.ite ?_ ?_
  on_goal 1 => refine (spec_linkOldRoot_listed d _ _ _ hl).bind fun tx₁ h₁ => ?_
  on_goal 2 => refine (Spec.pure' hl).bind fun tx₁ h₁ => ?_
  all_goals
    refine (spec_txnSet_eq d _ _ _).bind fun tx₂ htx₂ => ?_
    have h₂ : Listed d rootHash root.version tx₂ := htx₂ ▸ h₁.txnSet d (by simp) _
    split
    · exact (spec_onDb d (keeps_batchSet _ _ _)).bind' fun _ =>
        (spec_onDb d (keeps_setBatch_db _ _)).bind' fun _ => Spec.pure' h₂
    · exact (Spec.pure' trivial).bind' fun _ => Spec.pure' h₂

/-- `Commit` up to its flushes lists the root in the roots metadata its transaction sees, or
resets a batch whose root the store already lists. -/
theorem spec_commitPrepare_listed (id : Nat) (root : Root) :
    Spec (·.db = d) (commitPrepare id root) fun o =>
      (root.ns = d.ns ∧ ∀ l, d.meta.lastFinalizedVersion = some l → l < root.version) ∧
      Listed d (TypedHash.fromRoot root) root.version
        (o.getD (Txn.new (versionToTs root.version))) := by
  unfold commitPrepare
  dsimp only
  refine (spec_onDb d (keeps_getBatch _)).bind' fun ba => ?_
  refine (spec_commitChecks d _ _).bind fun _ hc => ?_
  refine Spec.mono (Q := fun o => Listed d (TypedHash.fromRoot root) root.version
    (o.getD (Txn.new (versionToTs root.version)))) ?_ fun _ h => ⟨hc, h⟩
  refine (spec_loadRootsMetadata_view d _ _).bind fun rm ⟨hver, hrm⟩ => ?_
  refine (spec_onDb d (keeps_registerRoot _ _)).bind' fun _ => ?_
  refine (spec_onDb d (keeps_getBatch _)).bind' fun ba => ?_
  have hts : tsMetadata ≤ versionToTs root.version := by simp [tsMetadata, versionToTs]
  have hpresent (hp : (rm.roots.lookup (TypedHash.fromRoot root)).isSome = true) :
      Listed d (TypedHash.fromRoot root) root.version (Txn.new (versionToTs root.version)) := by
    refine ⟨?_, hts⟩
    rcases hrm with h | ⟨-, h⟩
    · rw [h]; exact hp
    · rw [h] at hp; cases hp
  have tail (tx₁ : Txn) (h₁ : Listed d (TypedHash.fromRoot root) root.version tx₁) :
      Spec (·.db = d) (if ba.chunk = true then
          txnSet tx₁ (.rootUpdatedNodes root.version (TypedHash.fromRoot root))
            (.updatedNodes []) >>=
            fun y => pure (some y)
        else Batch.commitLinks id root (TypedHash.fromRoot root) tx₁ >>= fun y => pure (some y))
        fun o => Listed d (TypedHash.fromRoot root) root.version
          (o.getD (Txn.new (versionToTs root.version))) :=
    Spec.ite ((spec_txnSet_eq d _ _ _).bind fun _ h => Spec.pure' (h ▸ h₁.txnSet d (by simp) _))
      ((spec_commitLinks_listed d _ _ _ h₁).bind fun _ h => Spec.pure' h)
  split
  · rename_i hc
    exact (spec_onDb d (keeps_reset _)).bind' fun _ =>
      Spec.pure' (hpresent (Bool.and_eq_true _ _ ▸ hc).1)
  split
  · exact (Spec.pure' (hpresent ‹_›)).bind tail
  · refine (spec_txnSet_eq d _ _ _).bind fun tx₁ htx₁ => tail tx₁ ?_
    rw [← hver]
    exact htx₁ ▸ Listed.save d _ hts rm.version
      ((lookup_setRoot rm.roots (TypedHash.fromRoot root) []).2 (.inl rfl))

end OnDb

/-! ## After a successful `Commit` -/

/-- Over a typed store, after flushed versions of other keys, a transaction committed at the
metadata timestamp leaves a read of the roots metadata of `v` at that timestamp seeing what
the transaction saw. -/
theorem get_rootsMetadata_commitAt {st : Store} (hs : ∀ e ∈ st.entries, e.typed ns = true)
    {v : Nat} {Y : List Entry} (hY : ∀ e ∈ Y, e.key ≠ .rootsMetadata v) {tx : Txn}
    (hts : tsMetadata ≤ tx.readTs) :
    ((Store.commitAt ⟨Y ++ st.entries⟩ tx tsMetadata).get (.rootsMetadata v) tsMetadata).map
      Prod.snd = tx.view st (.rootsMetadata v) := by
  have hY' (t : Nat) :
      Store.get ⟨Y ++ st.entries⟩ (.rootsMetadata v) t = st.get (.rootsMetadata v) t :=
    Store.get_append_of_not_visible (fun e he => .inl (hY e he)) _
  rw [Store.get_commitAt, Txn.view]
  split
  · rfl
  · rw [hY', Store.get_meta hs (k := .rootsMetadata v) rfl hts]

/-- A read at the metadata timestamp that lists a root of the database's namespace, at or
above the earliest version, makes `HasRoot` true and `GetRootsForVersion` list the root. -/
theorem query_listed {s : Sys} {root : Root} (hns : root.ns = s.db.ns)
    (he : s.db.meta.earliestVersion ≤ root.version)
    (hl : listsRoot (TypedHash.fromRoot root)
      ((s.db.store.get (.rootsMetadata root.version) tsMetadata).map Prod.snd) = true) :
    s.query (hasRoot root) = .ok true ∧
      ∃ roots, s.query (getRootsForVersion root.version) = .ok roots ∧ root ∈ roots := by
  rcases hg : s.db.store.get (.rootsMetadata root.version) tsMetadata with _ | ⟨t, v⟩ <;>
    rw [hg] at hl
  · cases hl
  cases v <;> simp only [Option.map, listsRoot, Bool.false_eq_true] at hl
  rename_i roots
  have hnlt : ¬root.version < s.db.meta.earliestVersion := Nat.not_lt.2 he
  constructor
  · simp only [Sys.query, Sys.world, hasRoot, loadRootsMetadata, exec_bind, exec_getDb, exec_ite,
      exec_pure, exec_tryCatch, txnGet_new_exec, hg, hns, hnlt, hl, ne_eq, not_true_eq_false,
      if_false]
    split_ifs <;> rfl
  · refine ⟨_, by simp only [Sys.query, Sys.world, getRootsForVersion, loadRootsMetadata,
      exec_bind, exec_getDb, exec_ite, exec_pure, txnGet_new_exec, hg, hnlt, if_false]; rfl, ?_⟩
    obtain ⟨e, he, hfst⟩ := List.mem_map.1 (isSome_lookup_iff.1 hl)
    exact List.mem_map.2 ⟨e, he, by rw [hfst, ← hns]; rfl⟩

/-- After a successful `Commit` of `root` on an open reachable database, `HasRoot` finds the
root and `GetRootsForVersion` lists it. -/
theorem commit_registers_root {cfg : Config} {s s' : Sys} (hs : Reachable cfg s)
    (ho : s.isOpen = true) {id : Nat} {root : Root} {fault : Option Nat}
    (h : step s ⟨.commit id root, fault⟩ = (.ok (), s')) :
    s'.query (hasRoot root) = .ok true ∧
      ∃ roots, s'.query (getRootsForVersion root.version) = .ok roots ∧ root ∈ roots := by
  have hc : ∀ cfg, Action.commit id root ≠ .reopen cfg := fun _ => nofun
  obtain ⟨w', hx, hdb, -⟩ := exec_of_step hc h
  have hT := reachable_typed hs
  have hst : ∀ e ∈ s.db.store.entries, e.typed cfg.ns = true := (hT.world_of fault).store
  have hprep := spec_commitPrepare_listed s.db id root (s.world fault) rfl
  -- where the roots metadata of the version stands after the call
  have hread : s'.db.ns = s.db.ns ∧ s'.db.meta = s.db.meta ∧
      (root.ns = s.db.ns ∧
        ∀ l, s.db.meta.lastFinalizedVersion = some l → l < root.version) ∧
      listsRoot (TypedHash.fromRoot root)
        ((s'.db.store.get (.rootsMetadata root.version) tsMetadata).map Prod.snd) = true := by
    rcases commit_ok_cases hx with h₁ | ⟨tx, w₁, h₁, h₂⟩
    · rw [h₁] at hprep
      obtain ⟨hw', hQ⟩ := hprep
      obtain ⟨hc, hl, hts⟩ : _ ∧ Listed s.db _ _ (Txn.new (versionToTs root.version)) :=
        hQ _ rfl
      have hw' : s'.db = s.db := hdb.trans hw'
      refine ⟨by rw [hw'], by rw [hw'], hc, ?_⟩
      rw [Txn.view_new, Store.get_meta hst (k := .rootsMetadata root.version)
        (t := versionToTs root.version) rfl hts] at hl
      rw [hw']
      exact hl
    · rw [h₁] at hprep
      obtain ⟨hw₁ : w₁.db = s.db, hQ⟩ := hprep
      obtain ⟨hc, hl, hts⟩ : _ ∧ Listed s.db _ _ tx := hQ _ rfl
      have hwf₁ : (w₁.batches id).WellFormed :=
        (keeps_commitPrepare_wellFormed (P := (· = id)) rfl root).rel_of_exec h₁
          (fun i _ => reachable_batches_wellFormed hs i) id rfl
      have hw' := hdb.trans (commitFlush_ok h₂)
      refine ⟨by rw [hw', hw₁], by rw [hw', hw₁], hc, ?_⟩
      rw [hw', hw₁, Store.flush, ← List.append_assoc,
        get_rootsMetadata_commitAt hst (fun e he => (hwf₁.fromHandle e he).key_ne rfl rfl) hts]
      exact hl
  obtain ⟨hns, hmeta, ⟨hrns, hlt⟩, hl⟩ := hread
  exact query_listed (hns ▸ hrns) (hmeta ▸ ((hT.meta ho).2.2.earliest_le hlt)) hl

/-- The state a first batch reaches after putting one leaf, before its `Commit`. -/
def leafPut : Sys :=
  (run (Sys.fresh ⟨7, false, false⟩)
    (batchCalls 0 ⟨7, 0, .state, 0⟩ 0 false [.putNode (.leaf 1 10)])).2

theorem reachable_leafPut : Reachable ⟨7, false, false⟩ leafPut :=
  .step _ (.step _ .fresh ⟨by decide, by decide⟩ (.inl (by decide))) trivial (.inl (by decide))

theorem step_leafPut : step leafPut ⟨.commit 0 leafRoot, none⟩ = (.ok (), leafCommitted) :=
  Prod.ext (by decide) rfl

theorem commit_registers_root_leaf :
    (Reachable ⟨7, false, false⟩ leafPut ∧ leafPut.isOpen = true ∧
      step leafPut ⟨.commit 0 leafRoot, none⟩ = (.ok (), leafCommitted)) ∧
    leafCommitted.query (hasRoot leafRoot) = .ok true ∧
      ∃ roots, leafCommitted.query (getRootsForVersion leafRoot.version) = .ok roots ∧
        leafRoot ∈ roots :=
  ⟨⟨reachable_leafPut, rfl, step_leafPut⟩,
    commit_registers_root reachable_leafPut rfl step_leafPut⟩

end Mkvs.Badger
