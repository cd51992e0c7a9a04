import Mkvs.Proofs.Failures

/-!
# Multipart restores

`AbortMultipartInsert` and `New` clean up a restore with `cleanMultipartLocked`: it deletes
the restore log at the metadata timestamp, and with `removeNodes` the logged nodes and root
markers at the restored version's timestamp, and then records that no restore is active.
When a restore was active, it leaves no restore active and an empty restore log
(`cleanMultipartLocked_ok`).

The cleanup writes no other key (`keeps_cleanMultipartLocked_outside`). The roots metadata
and the updated-node records that a chunk `Commit` saved therefore stay, and `HasRoot` and
`GetRootsForVersion` answer after an abort as they did before it (`abort_keeps_roots`), for
a root the restore committed too (`abort_keeps_restored_root`). `Commit` compares a chunk
batch's version with the restore only while one is active, so a chunk batch opened during a
restore still commits after the abort and writes its root into the restore log; the next
cleanup finds no restore active and leaves that entry (`stale_chunk_commit_logs`).
-/

namespace Mkvs.Badger

variable {α β : Type}

/-! ## What a successful step writes -/

theorem batchWriteAt_ok {b b' : WriteBatch} {k : Key} {v : Option Value} {ts : Nat}
    {w w' : World} (h : (batchWriteAt b k v ts).exec w = (.ok b', w')) :
    b' = { b with writes := ⟨k, ts, v⟩ :: b.writes } := by
  unfold batchWriteAt at h
  split at h
  · simp only [throw_bind, exec_throw, Prod.mk.injEq, reduceCtorEq, false_and] at h
  · obtain ⟨_, _, -, h⟩ := exec_bind_ok h
    obtain ⟨_, _, -, h⟩ := exec_bind_ok h
    simp only [exec_pure, Prod.mk.injEq, Except.ok.injEq] at h
    exact h.1.symm

theorem tick_ok {w w' : World} (h : tick.exec w = (.ok (), w')) : w'.db = w.db ∧ w'.batches = w.batches := by
  simpa only [h] using keeps_tick (F := Frame.world) w

theorem batchFlush_ok {b b' : WriteBatch} {w w' : World}
    (h : (batchFlush b).exec w = (.ok b', w')) :
    w'.db = { w.db with store := w.db.store.flush b } := by
  unfold batchFlush at h
  split at h
  · simp only [throw_bind, exec_throw, Prod.mk.injEq, reduceCtorEq, false_and] at h
  · simp only [pure_bind, exec_bind, exec_modifyDb, exec_pure] at h
    rcases ht : tick.exec w with ⟨_ | _, w₁⟩ <;> rw [ht] at h
    · simp only [Prod.mk.injEq, reduceCtorEq, false_and] at h
    · simp only [Prod.mk.injEq] at h
      rw [← h.2]
      simp only [(tick_ok ht).1]

theorem txnCommitAt_ok {tx : Txn} {ts : Nat} {w w' : World}
    (h : (txnCommitAt tx ts).exec w = (.ok (), w')) :
    w'.db = { w.db with store := w.db.store.commitAt tx ts } := by
  obtain ⟨_, w₁, ht, h⟩ := exec_bind_ok h
  simp only [exec_modifyDb, Prod.mk.injEq] at h
  rw [← h.2, (tick_ok ht).1]

theorem setMultipartVersion_ok {tx tx' : Txn} {version : Nat} {w w' : World}
    (h : (setMultipartVersion tx version).exec w = (.ok tx', w')) :
    w'.db = { w.db with meta := { w.db.meta with multipartVersion := version } } ∧
      ∀ p ∈ tx'.pending, p ∈ tx.pending ∨ p.1 = .metadata := by
  unfold setMultipartVersion metaSave txnSet at h
  obtain ⟨_, w₁, hm, h₁⟩ := exec_bind_ok h
  obtain ⟨_, w₂, hd, h₂⟩ := exec_bind_ok h₁
  obtain ⟨_, w₃, ht, h₃⟩ := exec_bind_ok h₂
  simp only [exec_modifyDb, exec_getDb, exec_pure, Prod.mk.injEq, Except.ok.injEq] at hm hd h₃
  obtain ⟨-, rfl⟩ := hm
  obtain ⟨-, rfl⟩ := hd
  refine ⟨by rw [← h₃.2, (tick_ok ht).1], fun p hp => ?_⟩
  rw [← h₃.1] at hp
  rcases List.mem_cons.mp hp with rfl | hp
  · exact .inr rfl
  · exact .inl hp

/-! ## The cleanup loop -/

/-- The keys of a tree's contents: nodes and root markers. -/
def Key.isNodeKey : Key → Bool
  | .node _ | .rootNode _ => true
  | _ => false

theorem Key.isNodeKey_of_multipartLog {k : Key} (h : multipartLogPrefix k = true) :
    k.isNodeKey = false := by
  cases k <;> first | rfl | cases h

theorem cleanLogEntry_ok {removeNodes : Bool} {b b' : WriteBatch} {key : Key} {w w' : World}
    (h : (cleanLogEntry removeNodes b key).exec w = (.ok b', w')) :
    ∃ es, b'.writes = ⟨key, tsMetadata, none⟩ :: (es ++ b.writes) ∧ b'.commitTs = b.commitTs ∧
      ∀ e ∈ es, e.value = none ∧ e.key.isNodeKey = true := by
  unfold cleanLogEntry at h
  obtain ⟨b₁, w₁, h₁, h⟩ := exec_bind_ok h
  rw [batchWriteAt_ok h]
  suffices ∃ es, b₁.writes = es ++ b.writes ∧ b₁.commitTs = b.commitTs ∧
      ∀ e ∈ es, e.value = none ∧ e.key.isNodeKey = true by
    obtain ⟨es, hw, hc, hes⟩ := this
    exact ⟨es, by rw [hw], hc, hes⟩
  split at h₁
  · split at h₁
    · split at h₁ <;>
        exact ⟨[_], by rw [batchWriteAt_ok h₁]; rfl, by rw [batchWriteAt_ok h₁], by simp [Key.isNodeKey]⟩
    · simp only [exec_throw, Prod.mk.injEq, reduceCtorEq, false_and] at h₁
  · simp only [exec_pure, Prod.mk.injEq, Except.ok.injEq] at h₁
    exact ⟨[], by rw [← h₁.1]; rfl, by rw [← h₁.1], by simp⟩

/-- What the cleanup loop adds to its batch: deletions of nodes and root markers, and the
deletion of every logged key at the metadata timestamp. -/
theorem cleanLogEntries_ok {removeNodes : Bool} :
    ∀ {b b' : WriteBatch} {keys : List Key} {w w' : World},
      (cleanLogEntries removeNodes b keys).exec w = (.ok b', w') →
      ∃ es, b'.writes = es ++ b.writes ∧
        (∀ e ∈ es, e.value = none ∧ (e.key.isNodeKey = true ∨ (e.key ∈ keys ∧ e.ts = tsMetadata))) ∧
        ∀ k ∈ keys, ⟨k, tsMetadata, none⟩ ∈ es
  | b, b', [], w, w', h => by
    simp only [cleanLogEntries, exec_pure, Prod.mk.injEq, Except.ok.injEq] at h
    exact ⟨[], by rw [h.1]; rfl, by simp, by simp⟩
  | b, b', key :: keys, w, w', h => by
    obtain ⟨b₁, w₁, h₁, h⟩ := exec_bind_ok h
    obtain ⟨es₁, hw₁, -, hes₁⟩ := cleanLogEntry_ok h₁
    obtain ⟨es₂, hw₂, hes₂, hkeys⟩ := cleanLogEntries_ok h
    refine ⟨es₂ ++ ⟨key, tsMetadata, none⟩ :: es₁, by simp [hw₂, hw₁], ?_, ?_⟩
    · intro e he
      simp only [List.mem_append, List.mem_cons] at he
      rcases he with he | rfl | he
      · obtain ⟨hv, hk⟩ := hes₂ e he
        exact ⟨hv, hk.imp_right fun h => ⟨List.mem_cons_of_mem _ h.1, h.2⟩⟩
      · exact ⟨rfl, .inr ⟨List.mem_cons_self _ _, rfl⟩⟩
      · exact ⟨(hes₁ e he).1, .inl (hes₁ e he).2⟩
    · intro k hk
      rcases List.mem_cons.mp hk with rfl | hk
      · simp
      · exact List.mem_append_left _ (hkeys k hk)

/-! ## Reads after a deletion -/

theorem Store.latest_ts_le (s : Store) (k : Key) (t : Nat) :
    (s.latest k t).all (·.1 ≤ t) = true := by
  rcases h : s.latest k t with _ | ⟨ts, v⟩
  · rfl
  · simpa using (Store.latest_le h).1

/-- A read at `t` of a key whose versions among `es` are all deletions at `t`, and which has
one there, finds nothing. -/
theorem Store.get_append_deleted {k : Key} {t : Nat} (s : Store) :
    ∀ {es : List Entry}, (∀ e ∈ es, e.key = k → e.ts = t ∧ e.value = none) →
      (∃ e ∈ es, e.key = k) → Store.latest ⟨es ++ s.entries⟩ k t = some (t, none)
  | [], _, ⟨_, he, _⟩ => nomatch he
  | e :: es, hdel, hex => by
    rw [List.cons_append, Store.latest_cons]
    by_cases hk : e.key = k
    · obtain ⟨hts, hv⟩ := hdel e (List.mem_cons_self _ _) hk
      rw [pickLatest, if_pos ⟨hk, hts.le, hts ▸ Store.latest_ts_le _ k t⟩, hts, hv]
    · rw [pickLatest_of_not_visible (.inl hk)]
      obtain ⟨e', he', hk'⟩ := hex
      rcases List.mem_cons.mp he' with rfl | he'
      · exact absurd hk' hk
      · exact Store.get_append_deleted s (fun e he => hdel e (List.mem_cons_of_mem _ he)) ⟨e', he', hk'⟩

/-- Writes that delete, at `t`, every key a scan at `t` finds, and write no other version at
`t` of a key the scan selects, leave the scan empty. -/
theorem Store.scan_append_deleted {P : Key → Bool} {t : Nat} (s : Store) {es : List Entry}
    (hdel : ∀ e ∈ es, P e.key = true → e.ts = t ∧ e.value = none)
    (hall : ∀ k ∈ s.scan P t, ∃ e ∈ es, e.key = k) :
    Store.scan ⟨es ++ s.entries⟩ P t = [] := by
  refine List.eq_nil_iff_forall_not_mem.mpr fun k hk => ?_
  obtain ⟨hp, hget⟩ := Store.mem_scan.mp hk
  by_cases hex : ∃ e ∈ es, e.key = k
  · rw [Store.get, Store.get_append_deleted s (fun e he hek => hdel e he (hek ▸ hp)) hex] at hget
    cases hget
  · rw [Store.get_append_of_not_visible (fun e he => .inl fun hek => hex ⟨e, he, hek⟩)] at hget
    exact hex (hall k (Store.mem_scan.mpr ⟨hp, hget⟩))

/-! ## A cleanup that succeeds -/

/-- When a restore was active (in memory or in the stored metadata), a cleanup that succeeds
leaves no restore active and the restore log empty at the metadata timestamp. -/
theorem cleanMultipartLocked_ok {removeNodes : Bool} {w w' : World}
    (h : (cleanMultipartLocked removeNodes).exec w = (.ok (), w'))
    (hactive : w.db.multipartVersion ≠ multipartVersionNone ∨
      w.db.meta.multipartVersion ≠ multipartVersionNone) :
    w'.db.multipartVersion = multipartVersionNone ∧ w'.db.meta.multipartVersion = 0 ∧
      w'.db.store.scan multipartLogPrefix tsMetadata = [] := by
  have hv : (if w.db.multipartVersion ≠ multipartVersionNone then w.db.multipartVersion
      else w.db.meta.multipartVersion) ≠ multipartVersionNone := by
    split <;> omega
  unfold cleanMultipartLocked at h
  rw [exec_bind, exec_getDb] at h
  dsimp only at h
  rw [if_neg hv, exec_bind, exec_pure] at h
  dsimp only at h
  obtain ⟨keys, _, hs, h⟩ := exec_bind_ok h
  simp only [txnScan, exec_bind, exec_getDb, exec_pure, Prod.mk.injEq, Except.ok.injEq,
    Txn.new_readTs] at hs
  obtain ⟨hkeys_eq, rfl⟩ := hs
  obtain ⟨b, w₂, hc, h⟩ := exec_bind_ok h
  obtain ⟨_, w₃, hf, h⟩ := exec_bind_ok h
  obtain ⟨tx, w₄, hm, h⟩ := exec_bind_ok h
  obtain ⟨_, w₅, hcm, h⟩ := exec_bind_ok h
  simp only [exec_modifyDb, Prod.mk.injEq] at h
  obtain ⟨-, rfl⟩ := h
  have h₂ : Frame.db.rel w w₂ := (keeps_cleanLogEntries _ _ _).rel_of_exec hc
  obtain ⟨h₄, htx⟩ := setMultipartVersion_ok hm
  obtain ⟨es, hb, hes, hkeys⟩ := cleanLogEntries_ok hc
  have h₅ := txnCommitAt_ok hcm
  have hstore : w₅.db.store = (w.db.store.flush b).commitAt tx tsMetadata := by
    rw [h₅, h₄, batchFlush_ok hf, h₂]
  -- the flushed batch deletes every logged key at the metadata timestamp
  have hflush : (w.db.store.flush b).scan multipartLogPrefix tsMetadata = [] := by
    rw [Store.flush, hb, WriteBatch.new, List.append_nil]
    refine Store.scan_append_deleted _ (fun e he hp => ?_) fun k hk =>
      ⟨_, hkeys k (hkeys_eq ▸ hk), rfl⟩
    obtain ⟨hv, hkind | ⟨-, hts⟩⟩ := hes e he
    · rw [Key.isNodeKey_of_multipartLog hp] at hkind
      cases hkind
    · exact ⟨hts, hv⟩
  refine ⟨rfl, by simp [h₅, h₄], List.eq_nil_iff_forall_not_mem.mpr fun k hk => ?_⟩
  obtain ⟨hp, hget⟩ := Store.mem_scan.mp hk
  -- the metadata commit writes only the metadata record
  rw [hstore, Store.commitAt, Store.get_append_of_not_visible] at hget
  · exact List.not_mem_nil k (hflush ▸ Store.mem_scan.mpr ⟨hp, hget⟩)
  · intro e he
    obtain ⟨p, hp', rfl⟩ := List.mem_map.mp he
    refine .inl fun hpk => ?_
    rcases htx p hp' with hp' | hp'
    · simp [Txn.new] at hp'
    · rw [hp'] at hpk
      subst hpk
      cases hp

/-! ## What the cleanup leaves alone -/

/-- The keys the cleanup writes: nodes, root markers, the restore log and the metadata
record. -/
def Key.cleanupKind : Key → Bool
  | .node _ | .rootNode _ | .multipartRestoreNodeLog _ | .metadata => true
  | _ => false

theorem Key.cleanupKind_of_isNodeKey {k : Key} (h : k.isNodeKey = true) :
    k.cleanupKind = true := by
  cases k <;> first | rfl | cases h

theorem Key.cleanupKind_of_multipartLog {k : Key} (h : multipartLogPrefix k = true) :
    k.cleanupKind = true := by
  cases k <;> first | rfl | cases h

/-- Every key outside `P` reads the same at every timestamp. -/
def Frame.keysOutside (P : Key → Bool) : Frame where
  rel w w' := ∀ k, P k = false → ∀ t, w'.db.store.get k t = w.db.store.get k t
  refl _ _ _ _ := rfl
  trans h₁ h₂ k hk t := (h₂ k hk t).trans (h₁ k hk t)
  fault _ _ _ _ _ := rfl

theorem ne_of_kind {P : Key → Bool} {k k' : Key} (h : P k = true) (h' : P k' = false) :
    k ≠ k' := by
  rintro rfl
  rw [h] at h'
  cases h'

section KeysOutside

variable {P : Key → Bool}

theorem keeps_modifyDb_outside {f : Db → Db} (hf : ∀ d, (f d).store = d.store) :
    Keeps (Frame.keysOutside P) (modifyDb f) :=
  keeps_modifyDb fun w k _ t => by simp only [hf]

theorem keeps_batchFlush_outside {b : WriteBatch} (hb : ∀ e ∈ b.writes, P e.key = true) :
    Keeps (Frame.keysOutside P) (batchFlush b) := by
  have hf : ∀ w : World, (Frame.keysOutside P).rel w
      { w with db := { w.db with store := w.db.store.flush b } } := fun w k hk _ =>
    Store.get_append_of_not_visible (fun e he => .inl (ne_of_kind (hb e he) hk)) _
  unfold batchFlush
  dsimp only
  split
  · exact (Keeps.throw' _).bind fun _ => keeps_tick.bind fun _ =>
      (keeps_modifyDb hf).bind fun _ => .pure' _
  · exact (Keeps.pure' _).bind fun _ => keeps_tick.bind fun _ =>
      (keeps_modifyDb hf).bind fun _ => .pure' _

theorem keeps_txnCommitAt_outside {tx : Txn} (ts : Nat) (htx : ∀ p ∈ tx.pending, P p.1 = true) :
    Keeps (Frame.keysOutside P) (txnCommitAt tx ts) :=
  keeps_tick.bind fun _ => keeps_modifyDb fun w k hk _ =>
    Store.get_append_of_not_visible (fun e he => by
      obtain ⟨p, hp, rfl⟩ := List.mem_map.mp he
      exact .inl (ne_of_kind (htx p hp) hk)) _

theorem keeps_setMultipartVersion_outside (tx : Txn) (version : Nat) :
    Keeps (Frame.keysOutside P) (setMultipartVersion tx version) := by
  unfold setMultipartVersion
  refine (keeps_modifyDb_outside ?_).bind fun _ => keeps_metaSave _
  exact fun _ => rfl

/-- A bind keeps `F` when its first part does and its second does for every value the
first part can return. -/
theorem Keeps.bind_of_ok {F : Frame} {x : DbM α} {f : α → DbM β} {Q : α → Prop}
    (hx : Keeps F x) (hQ : ∀ w a w', x.exec w = (.ok a, w') → Q a)
    (hf : ∀ a, Q a → Keeps F (f a)) : Keeps F (x >>= f) := by
  intro w
  rw [exec_bind]
  rcases h : x.exec w with ⟨_ | a, w₁⟩
  · exact hx.rel_of_exec h
  · exact F.trans (hx.rel_of_exec h) (hf a (hQ w a w₁ h) w₁)

end KeysOutside

/-- Whether it succeeds or not, the cleanup changes no key but nodes, root markers, the
restore log and the metadata record: the roots metadata, the updated-node records and the
write logs read as before at every timestamp. -/
theorem keeps_cleanMultipartLocked_outside (removeNodes : Bool) :
    Keeps (Frame.keysOutside Key.cleanupKind) (cleanMultipartLocked removeNodes) := by
  unfold cleanMultipartLocked
  refine keeps_getDb.bind fun d => ?_
  dsimp only
  generalize (if d.multipartVersion ≠ multipartVersionNone then d.multipartVersion
    else d.meta.multipartVersion) = version
  split
  · exact .pure' _
  refine (Keeps.pure' _).bind fun _ => ?_
  refine (keeps_txnScan _ _).bind_of_ok (Q := fun keys => ∀ k ∈ keys, multipartLogPrefix k = true)
    (fun w keys w' h k hk => ?_) fun keys hkeys => ?_
  · simp only [txnScan, exec_bind, exec_getDb, exec_pure, Prod.mk.injEq, Except.ok.injEq] at h
    exact (Store.mem_scan.mp (h.1 ▸ hk)).1
  refine (keeps_cleanLogEntries _ _ _).bind_of_ok
    (Q := fun b => ∀ e ∈ b.writes, e.key.cleanupKind = true) (fun w b w' h e he => ?_)
    fun b hb => (keeps_batchFlush_outside hb).bind fun _ => ?_
  · obtain ⟨es, hw, hes, -⟩ := cleanLogEntries_ok h
    rw [hw, WriteBatch.new, List.append_nil] at he
    obtain ⟨-, hk | ⟨hk, -⟩⟩ := hes e he
    · exact Key.cleanupKind_of_isNodeKey hk
    · exact Key.cleanupKind_of_multipartLog (hkeys _ hk)
  refine (keeps_setMultipartVersion_outside _ _).bind_of_ok
    (Q := fun tx : Txn => ∀ p ∈ tx.pending, p.1.cleanupKind = true)
    (fun w tx w' h p hp => ?_) fun tx htx =>
      (keeps_txnCommitAt_outside _ htx).bind fun _ => keeps_modifyDb_outside ?_
  rotate_left
  · exact fun _ => rfl
  rcases (setMultipartVersion_ok h).2 p hp with hp | hp
  · simp [Txn.new] at hp
  · rw [hp]
    rfl

/-- The configuration `New` sets does not change. -/
def Frame.config : Frame where
  rel w w' := w'.db.ns = w.db.ns ∧ w'.db.readOnly = w.db.readOnly ∧
    w'.db.discardWriteLogs = w.db.discardWriteLogs
  refl _ := ⟨rfl, rfl, rfl⟩
  trans h₁ h₂ := ⟨h₂.1.trans h₁.1, h₂.2.1.trans h₁.2.1, h₂.2.2.trans h₁.2.2⟩
  fault _ _ := ⟨rfl, rfl, rfl⟩

theorem keeps_modifyDb_config {f : Db → Db} (hns : ∀ d, (f d).ns = d.ns)
    (hro : ∀ d, (f d).readOnly = d.readOnly)
    (hdw : ∀ d, (f d).discardWriteLogs = d.discardWriteLogs) :
    Keeps Frame.config (modifyDb f) :=
  keeps_modifyDb fun w => ⟨hns w.db, hro w.db, hdw w.db⟩

theorem keeps_cleanMultipartLocked_config (removeNodes : Bool) :
    Keeps Frame.config (cleanMultipartLocked removeNodes) := by
  have hstore : ∀ w (st : Store), Frame.config.rel w { w with db := { w.db with store := st } } :=
    fun _ _ => ⟨rfl, rfl, rfl⟩
  unfold cleanMultipartLocked setMultipartVersion
  dsimp only
  repeat' with_reducible first
    | exact .pure' _ | exact keeps_getDb | exact keeps_txnScan _ _
    | exact keeps_cleanLogEntries _ _ _ | exact keeps_metaSave _
    | exact keeps_batchFlush hstore _ | exact keeps_txnCommitAt hstore _ _
    | exact keeps_modifyDb_config (fun _ => rfl) (fun _ => rfl) fun _ => rfl
    | refine .bind ?_ fun _ => ?_
    | refine .ite ?_ ?_

/-! ## Queries on the roots -/

/-- What `HasRoot` and `GetRootsForVersion` read: the namespace, the earliest version, and
the roots metadata at the metadata timestamp. -/
def RootsView (d d' : Db) : Prop :=
  d'.ns = d.ns ∧ d'.meta.earliestVersion = d.meta.earliestVersion ∧
    ∀ v, d'.store.get (.rootsMetadata v) tsMetadata = d.store.get (.rootsMetadata v) tsMetadata

/-- What `HasRoot` and `GetRootsForVersion` read does not change. -/
def Frame.rootsView : Frame where
  rel w w' := RootsView w.db w'.db
  refl _ := ⟨rfl, rfl, fun _ => rfl⟩
  trans h₁ h₂ := ⟨h₂.1.trans h₁.1, h₂.2.1.trans h₁.2.1, fun v => (h₂.2.2 v).trans (h₁.2.2 v)⟩
  fault _ _ := ⟨rfl, rfl, fun _ => rfl⟩

/-- Whether it succeeds or not, the cleanup of a restore leaves what the root queries read. -/
theorem keeps_cleanMultipartLocked_rootsView (removeNodes : Bool) :
    Keeps Frame.rootsView (cleanMultipartLocked removeNodes) := fun w =>
  ⟨(keeps_cleanMultipartLocked_config removeNodes w).1,
    (keeps_cleanMultipartLocked removeNodes w).1,
    fun v => keeps_cleanMultipartLocked_outside removeNodes w (.rootsMetadata v) rfl _⟩

/-- `HasRoot` answers alike on two databases of one namespace that agree on whether the
root's version is pruned and read the same roots metadata of it. -/
theorem query_hasRoot_congr {s s' : Sys} {root : Root} (hns : s'.db.ns = s.db.ns)
    (he : root.version < s'.db.meta.earliestVersion ↔ root.version < s.db.meta.earliestVersion)
    (hrm : s'.db.store.get (.rootsMetadata root.version) tsMetadata =
      s.db.store.get (.rootsMetadata root.version) tsMetadata) :
    s'.query (hasRoot root) = s.query (hasRoot root) := by
  simp only [Sys.query, Sys.world, hasRoot, loadRootsMetadata, exec_bind, exec_getDb, exec_ite,
    exec_pure, exec_tryCatch, txnGet_new_exec, hns, he, hrm]
  split_ifs
  all_goals try rfl
  rcases s.db.store.get (.rootsMetadata root.version) tsMetadata with
    _ | ⟨_, _ | _ | _ | _ | _ | _⟩ <;> rfl

/-- `GetRootsForVersion v` answers alike on two databases of one namespace that agree on
whether `v` is pruned and read the same roots metadata of it. -/
theorem query_getRootsForVersion_congr {s s' : Sys} {v : Nat} (hns : s'.db.ns = s.db.ns)
    (he : v < s'.db.meta.earliestVersion ↔ v < s.db.meta.earliestVersion)
    (hrm : s'.db.store.get (.rootsMetadata v) tsMetadata =
      s.db.store.get (.rootsMetadata v) tsMetadata) :
    s'.query (getRootsForVersion v) = s.query (getRootsForVersion v) := by
  simp only [Sys.query, Sys.world, getRootsForVersion, loadRootsMetadata, exec_bind, exec_getDb,
    exec_ite, exec_pure, txnGet_new_exec, he, hrm]
  split_ifs
  · rfl
  · rcases s.db.store.get (.rootsMetadata v) tsMetadata with
      _ | ⟨_, _ | _ | _ | _ | _ | _⟩ <;> simp [hns]

theorem query_roots_congr {s s' : Sys} (h : RootsView s.db s'.db) (root : Root) (v : Nat) :
    s'.query (hasRoot root) = s.query (hasRoot root) ∧
      s'.query (getRootsForVersion v) = s.query (getRootsForVersion v) :=
  ⟨query_hasRoot_congr h.1 (by rw [h.2.1]) (h.2.2 _),
    query_getRootsForVersion_congr h.1 (by rw [h.2.1]) (h.2.2 _)⟩

/-- `AbortMultipartInsert`, whether it succeeds or fails, leaves `HasRoot` and
`GetRootsForVersion` answering every query as before. -/
theorem abort_keeps_roots (s : Sys) (fault : Option Nat) (root : Root) (v : Nat) :
    (step s ⟨.abortMultipartInsert, fault⟩).2.query (hasRoot root) = s.query (hasRoot root) ∧
      (step s ⟨.abortMultipartInsert, fault⟩).2.query (getRootsForVersion v) =
        s.query (getRootsForVersion v) :=
  query_roots_congr (by exact keeps_cleanMultipartLocked_rootsView true (s.world fault)) root v

/-! ## A restore whose abort keeps its root

From a fresh database, a restore into version 5 commits a root from the empty root in
chunk mode and is aborted. -/

/-- The root the restore commits, and the leaf it puts. -/
def restoredRoot : Root := ⟨7, 5, .state, 500⟩

/-- `StartMultipartInsert(5)`, one chunk batch that puts a leaf and commits
`restoredRoot`, then `AbortMultipartInsert`. -/
def restoreTrace : List Call :=
  [⟨.startMultipartInsert 5, none⟩, ⟨.newBatch 0 ⟨7, 5, .state, 0⟩ 5 true, none⟩,
    ⟨.putNode 0 (.leaf 5 50), none⟩, ⟨.commit 0 restoredRoot, none⟩,
    ⟨.abortMultipartInsert, none⟩]

/-- Every call succeeds and no restore is active at the end, but `HasRoot` and
`GetRootsForVersion` now report the restored root, which they did not before the restore;
`GetNode` on it fails. -/
theorem abort_keeps_restored_root :
    let s : Sys := Sys.fresh ⟨7, false, false⟩
    let r := run s restoreTrace
    s.db.multipartVersion = multipartVersionNone ∧ s.db.meta.lastFinalizedVersion = none ∧
      r.1.all Except.isOk ∧ r.2.db.multipartVersion = multipartVersionNone ∧
      r.2.db.meta.multipartVersion = 0 ∧
      s.query (hasRoot restoredRoot) = .ok false ∧ r.2.query (hasRoot restoredRoot) = .ok true ∧
      s.query (getRootsForVersion 5) = .ok [] ∧
      r.2.query (getRootsForVersion 5) = .ok [restoredRoot] ∧
      r.2.query (getNode restoredRoot (Node.leaf 5 50).getHash) = .error .rootNotFound := by
  decide

/-! ## A chunk batch that outlives its restore -/

/-- A chunk batch opened during a restore of version 5, which is aborted before the batch
puts a leaf and commits `restoredRoot`. -/
def staleChunkTrace : List Call :=
  [⟨.startMultipartInsert 5, none⟩, ⟨.newBatch 0 ⟨7, 5, .state, 0⟩ 5 true, none⟩,
    ⟨.abortMultipartInsert, none⟩, ⟨.putNode 0 (.leaf 5 50), none⟩,
    ⟨.commit 0 restoredRoot, none⟩]

/-- Every call succeeds, the chunk `Commit` included, and no restore is active, but the
restore log is not empty; reopening the database leaves it so. -/
theorem stale_chunk_commit_logs :
    let cfg : Config := ⟨7, false, false⟩
    let r := run (Sys.fresh cfg) staleChunkTrace
    r.1.all Except.isOk ∧ r.2.db.multipartVersion = multipartVersionNone ∧
      r.2.db.meta.multipartVersion = 0 ∧
      r.2.db.store.scan multipartLogPrefix tsMetadata ≠ [] ∧
      (run (Sys.fresh cfg) (staleChunkTrace ++ [⟨.reopen cfg, none⟩])).1.all Except.isOk ∧
      (run (Sys.fresh cfg) (staleChunkTrace ++ [⟨.reopen cfg, none⟩])).2.db.store.scan
        multipartLogPrefix tsMetadata ≠ [] := by
  decide

end Mkvs.Badger
