import Mkvs.Proofs.Handles

/-!
# Typed versions

Each key format of the store holds one kind of value: a node under its own hash, a write
log under a write-log key, a roots-metadata record, an updated-nodes record, the database
metadata under the metadata key, and the empty value under a root marker or a restore-log
key. No code deletes the metadata key, and none writes the migration marker. For the
database of namespace `ns`, every metadata record is of the current format and of `ns`, and
keeps the bounds `VersionBounds` on its two versions. The metadata records, the roots
metadata and the updated-node records are written only in transactions, all committed at
the metadata timestamp, so every version of those keys is at that timestamp; a write batch
holds none of them.

`World.Typed ns` says that every version in the store and in every batch handle is typed
that way, and that the store holds a metadata record at the metadata timestamp.
`TypedSpec ns p Q` says that `p`, started in a typed world whose in-memory metadata is of
the current format and of `ns`, ends in such a world, and that what it returns satisfies
`Q`: a write batch or a transaction that it built is typed, so that a later flush or
commit keeps the store typed.

This module states the predicates, the rules of `Spec` (of which `TypedSpec` is one
instance), and the primitive steps; the operations are in `Mkvs.Proofs.TypedRuns`.
-/

namespace Mkvs.Badger

variable {α β : Type}

/-! ## Typed versions -/

/-- `VersionBounds`, as a test of a stored metadata record. -/
def Metadata.bounded (m : Metadata) : Bool :=
  match m.lastFinalizedVersion with
  | none => m.earliestVersion == 0
  | some l => decide (m.earliestVersion ≤ l) && decide (l < 2 ^ 64)

theorem Metadata.bounded_iff {m : Metadata} : m.bounded = true ↔ VersionBounds m := by
  rcases m with ⟨_, _, e, _ | l, _⟩
  · simp only [Metadata.bounded, beq_iff_eq]
    exact ⟨fun h => ⟨fun _ => h, fun _ h' => (nomatch h'), fun _ h' => (nomatch h')⟩,
      fun h => h.earliest_initial rfl⟩
  · simp only [Metadata.bounded, Bool.and_eq_true, decide_eq_true_eq]
    exact ⟨fun h => ⟨fun h' => (nomatch h'), fun _ h' => (by cases h'; exact h.1),
      fun _ h' => (by cases h'; exact h.2)⟩, fun h => ⟨h.earliest_le_last l rfl, h.last_lt l rfl⟩⟩

/-- The values a key format holds in the database of namespace `ns`. -/
def Key.admits (ns : Nat) : Key → Value → Bool
  | .node h, .node n => n.getHash == h
  | .writeLog _ _ _, .writeLog _ => true
  | .rootsMetadata _, .rootsMetadata _ => true
  | .rootUpdatedNodes _ _, .updatedNodes _ => true
  | .metadata, .metadata m => m.version == dbVersion && m.ns == ns && m.bounded
  | .multipartRestoreNodeLog _, .empty => true
  | .rootNode _, .empty => true
  | _, _ => false

/-- The keys the code deletes: all but the metadata and the migration marker. -/
def Key.deletable : Key → Bool
  | .metadata | .migrationMeta => false
  | _ => true

/-- A write of `k`: a value the key format holds, or a deletion of a key the code deletes. -/
def typedWrite (ns : Nat) (k : Key) : Option Value → Bool
  | some v => k.admits ns v
  | none => k.deletable

/-- The keys of the metadata records, the roots metadata and the updated-node records. -/
def Key.isMeta : Key → Bool
  | .rootsMetadata _ | .rootUpdatedNodes _ _ | .metadata | .migrationMeta => true
  | _ => false

/-- A typed version: a typed write, at the metadata timestamp for a metadata key. -/
def Entry.typed (ns : Nat) (e : Entry) : Bool :=
  typedWrite ns e.key e.value && (!e.key.isMeta || e.ts == tsMetadata)

/-- A write a write batch may hold: a typed write of a key that is not a metadata key. -/
def batchWrite (ns : Nat) (k : Key) (v : Option Value) : Bool := typedWrite ns k v && !k.isMeta

/-- A write batch of typed versions. -/
def WriteBatch.typed (ns : Nat) (b : WriteBatch) : Bool :=
  b.writes.all fun e => batchWrite ns e.key e.value

/-- A transaction whose pending writes are typed. -/
def Txn.typed (ns : Nat) (tx : Txn) : Bool := tx.pending.all fun p => typedWrite ns p.1 p.2

/-- A batch handle whose node batch and restore-log batch are typed. -/
def Batch.typed (ns : Nat) (ba : Batch) : Bool :=
  ba.bat.typed ns && ba.multipartNodes.all (WriteBatch.typed ns)

/-- Every version the store and the handles hold is typed, and the store holds a
metadata record that a read at the metadata timestamp sees. -/
structure World.Typed (ns : Nat) (w : World) : Prop where
  store : ∀ e ∈ w.db.store.entries, e.typed ns = true
  stored : ∃ e ∈ w.db.store.entries, e.key = .metadata ∧ e.ts ≤ tsMetadata
  handles : ∀ i, (w.batches i).typed ns = true

/-- The in-memory metadata is of the current format and of namespace `ns`, and keeps the
version bounds. -/
def Db.MetaOk (ns : Nat) (d : Db) : Prop :=
  d.meta.version = dbVersion ∧ d.meta.ns = ns ∧ VersionBounds d.meta

section Basic

variable {ns : Nat}

@[simp] theorem WriteBatch.typed_new (ts : Nat) : (WriteBatch.new ts).typed ns = true := rfl

@[simp] theorem Txn.typed_new (ts : Nat) : (Txn.new ts).typed ns = true := rfl

theorem WriteBatch.typed_cons {b : WriteBatch} (hb : b.typed ns = true) {k : Key}
    {v : Option Value} (hv : batchWrite ns k v = true) (ts : Nat) :
    { b with writes := ⟨k, ts, v⟩ :: b.writes }.typed ns = true := by
  simp only [WriteBatch.typed, List.all_cons, hv, Bool.true_and]
  exact hb

theorem WriteBatch.typed_entry {b : WriteBatch} (hb : b.typed ns = true) {e : Entry}
    (he : e ∈ b.writes) : e.typed ns = true := by
  have := List.all_eq_true.1 hb e he
  simp only [batchWrite, Bool.and_eq_true, Bool.not_eq_true'] at this
  simp [Entry.typed, this.1, this.2]

theorem Entry.typed_write {e : Entry} (h : e.typed ns = true) : typedWrite ns e.key e.value = true :=
  (Bool.and_eq_true _ _ ▸ h).1

theorem Entry.typed_ts {e : Entry} (h : e.typed ns = true) (hk : e.key.isMeta = true) :
    e.ts = tsMetadata := by
  have := (Bool.and_eq_true _ _ ▸ h).2
  simpa only [hk, Bool.not_true, Bool.false_or, beq_iff_eq] using this

theorem Txn.typed_cons {tx : Txn} (htx : tx.typed ns = true) {k : Key} {v : Option Value}
    (hv : typedWrite ns k v = true) : { tx with pending := (k, v) :: tx.pending }.typed ns = true := by
  simp only [Txn.typed, List.all_cons, hv, Bool.true_and]
  exact htx

theorem Batch.typed_bat {ba : Batch} (h : ba.typed ns = true) : ba.bat.typed ns = true :=
  (Bool.and_eq_true _ _ ▸ h).1

theorem Batch.typed_log {ba : Batch} (h : ba.typed ns = true) {mn : WriteBatch}
    (hmn : ba.multipartNodes = some mn) : mn.typed ns = true := by
  have := (Bool.and_eq_true _ _ ▸ h).2
  rwa [hmn, Option.all_some] at this

theorem Batch.typed_mk {ba : Batch} (hb : ba.bat.typed ns = true)
    (hmn : ∀ mn, ba.multipartNodes = some mn → mn.typed ns = true) : ba.typed ns = true := by
  simp only [Batch.typed, hb, Bool.true_and]
  cases h : ba.multipartNodes with
  | none => rfl
  | some mn => exact hmn mn h

theorem Batch.typed_with_bat {ba : Batch} (hba : ba.typed ns = true) {b : WriteBatch}
    (hb : b.typed ns = true) : { ba with bat := b }.typed ns = true :=
  Batch.typed_mk hb fun _ h => Batch.typed_log hba h

theorem Batch.typed_with_log {ba : Batch} (hba : ba.typed ns = true) {mn : WriteBatch}
    (hmn : mn.typed ns = true) : { ba with multipartNodes := some mn }.typed ns = true :=
  Batch.typed_mk (show ba.bat.typed ns = true from Batch.typed_bat hba) fun _ h => by
    cases h; exact hmn

theorem Batch.typed_closed : Batch.closed.typed ns = true := rfl

/-! ## What a typed store answers -/

/-- A version a read sees is one of the store's versions. -/
theorem Store.typed_of_latest {s : Store} (hs : ∀ e ∈ s.entries, e.typed ns = true) {k : Key}
    {t ts : Nat} {v : Option Value} (h : s.latest k t = some (ts, v)) : typedWrite ns k v = true :=
  Entry.typed_write (hs _ (Store.latest_le h).2)

/-- A value a read of a typed store finds is one its key format holds. -/
theorem Store.admits_of_get {s : Store} (hs : ∀ e ∈ s.entries, e.typed ns = true) {k : Key}
    {t ts : Nat} {v : Value} (h : s.get k t = some (ts, v)) : k.admits ns v = true := by
  unfold Store.get at h
  split at h
  · rename_i ts' v' hl
    cases h
    exact Store.typed_of_latest hs hl
  · cases h

/-- A read sees some version of a key that has one at or below its timestamp. -/
theorem Store.latest_isSome {s : Store} {k : Key} {t : Nat} {e : Entry} (he : e ∈ s.entries)
    (hk : e.key = k) (ht : e.ts ≤ t) : (s.latest k t).isSome := by
  obtain ⟨es⟩ := s
  induction es with
  | nil => cases he
  | cons e' es ih =>
    rw [Store.latest_cons, pickLatest]
    split
    · rfl
    · rename_i hv
      rcases List.mem_cons.1 he with rfl | he
      · cases hl : Store.latest ⟨es⟩ k t with
        | none => exact absurd ⟨hk, ht, by simp [hl]⟩ hv
        | some _ => rfl
      · exact ih he

/-- A typed store that holds a metadata record returns one to a read at the metadata
timestamp. -/
theorem Store.get_metadata {s : Store} (hs : ∀ e ∈ s.entries, e.typed ns = true)
    (hst : ∃ e ∈ s.entries, e.key = .metadata ∧ e.ts ≤ tsMetadata) :
    ∃ ts m, s.get .metadata tsMetadata = some (ts, .metadata m) ∧ m.version = dbVersion ∧
      m.ns = ns ∧ VersionBounds m := by
  obtain ⟨e, he, hk, ht⟩ := hst
  obtain ⟨⟨ts, v⟩, hl⟩ := Option.isSome_iff_exists.1 (Store.latest_isSome he hk ht)
  have hv := Store.typed_of_latest hs hl
  rcases v with _ | v
  · cases hv
  · cases v <;> simp only [typedWrite, Key.admits, reduceCtorEq, Bool.and_eq_true,
      beq_iff_eq] at hv
    exact ⟨ts, _, by simp [Store.get, hl], hv.1.1, hv.1.2, Metadata.bounded_iff.1 hv.2⟩

/-- A typed store holds no migration marker. -/
theorem Store.get_migrationMeta {s : Store} (hs : ∀ e ∈ s.entries, e.typed ns = true) (t : Nat) :
    s.get .migrationMeta t = none := by
  cases hg : s.get .migrationMeta t with
  | none => rfl
  | some p =>
    have := Store.admits_of_get hs hg
    cases p.2 <;> simp [Key.admits] at this

theorem World.Typed.flush {w : World} (hw : w.Typed ns) {b : WriteBatch} (hb : b.typed ns = true) :
    World.Typed ns { w with db := { w.db with store := w.db.store.flush b } } where
  store e he := by
    rcases List.mem_append.1 he with he | he
    · exact WriteBatch.typed_entry hb he
    · exact hw.store e he
  stored := by
    obtain ⟨e, he, h⟩ := hw.stored
    exact ⟨e, List.mem_append_right _ he, h⟩
  handles := hw.handles

theorem World.Typed.commitAt {w : World} (hw : w.Typed ns) {tx : Txn} (htx : tx.typed ns = true) :
    World.Typed ns { w with db := { w.db with store := w.db.store.commitAt tx tsMetadata } } where
  store e he := by
    rcases List.mem_append.1 he with he | he
    · obtain ⟨p, hp, rfl⟩ := List.mem_map.1 he
      simp [Entry.typed, List.all_eq_true.1 htx p hp]
    · exact hw.store e he
  stored := by
    obtain ⟨e, he, h⟩ := hw.stored
    exact ⟨e, List.mem_append_right _ he, h⟩
  handles := hw.handles

theorem World.Typed.setBatch {w : World} (hw : w.Typed ns) {ba : Batch} (hba : ba.typed ns = true)
    (id : Nat) : World.Typed ns { w with batches := fun i => if i = id then ba else w.batches i } where
  store := hw.store
  stored := hw.stored
  handles i := by
    dsimp only
    split
    · exact hba
    · exact hw.handles i

end Basic

/-! ## Specifications

`Spec I p Q`: from a world where `I` holds, `p` ends in one, and a value it returns
satisfies `Q`. The rules below assemble an operation's specification from its parts; the
bind rule hands the property of the first part's result to the rest. `TypedSpec ns` is
`Spec` for the invariant of a database of namespace `ns` that is open. -/

/-- From a world where `I` holds, `p` ends in one, and a value it returns satisfies `Q`. -/
def Spec (I : World → Prop) (p : DbM α) (Q : α → Prop) : Prop :=
  ∀ w, I w → I (p.exec w).2 ∧ ∀ a, (p.exec w).1 = .ok a → Q a

namespace Spec

variable {I : World → Prop} {Q R : α → Prop} {x : DbM α} {f : α → DbM β}

/-- A part that keeps a frame that keeps `I`, and returns nothing of interest. -/
theorem of_keeps {F : Frame} (hF : ∀ w w', I w → F.rel w w' → I w') (hx : Keeps F x) :
    Spec I x fun _ => True :=
  fun w hw => ⟨hF _ _ hw (hx w), fun _ _ => trivial⟩

theorem pure' {a : α} (h : Q a) : Spec I (pure a) Q :=
  fun _ hw => ⟨hw, fun _ ha => by cases ha; exact h⟩

theorem throw' (e : Error) : Spec I (throw e : DbM α) Q :=
  fun _ hw => ⟨hw, fun _ ha => by cases ha⟩

theorem bind {Q : α → Prop} {R : β → Prop} (hx : Spec I x Q) (hf : ∀ a, Q a → Spec I (f a) R) :
    Spec I (x >>= f) R := fun w hw => by
  rw [exec_bind]
  obtain ⟨hw₁, hQ⟩ := hx w hw
  rcases h : x.exec w with ⟨e | a, w₁⟩ <;> rw [h] at hw₁ hQ
  · exact ⟨hw₁, fun _ ha => by cases ha⟩
  · exact hf a (hQ a rfl) w₁ hw₁

/-- The bind rule for a first part that returns nothing of interest. -/
theorem bind' {R : β → Prop} (hx : Spec I x fun _ => True) (hf : ∀ a, Spec I (f a) R) :
    Spec I (x >>= f) R :=
  hx.bind fun a _ => hf a

theorem ite {c : Prop} [Decidable c] {y : DbM α} (hx : Spec I x Q) (hy : Spec I y Q) :
    Spec I (if c then x else y) Q := by
  split <;> assumption

/-- A guard: `if c then throw e`, then the rest. -/
theorem ite_throw {c : Prop} [Decidable c] {e : Error} {R : β → Prop} {k : PUnit → DbM β}
    (hk : Spec I (k ()) R) : Spec I (if c then throw e >>= k else pure () >>= k) R := by
  split
  · exact bind (Q := fun _ => False) (throw' e) fun _ h => h.elim
  · exact bind (Q := fun _ => True) (pure' trivial) fun _ _ => hk

theorem tryCatch {h : Error → DbM α} (hx : Spec I x Q) (hh : ∀ e, Spec I (h e) Q) :
    Spec I (tryCatch x h) Q := fun w hw => by
  rw [exec_tryCatch]
  obtain ⟨hw₁, hQ⟩ := hx w hw
  rcases hr : x.exec w with ⟨e | a, w₁⟩ <;> rw [hr] at hw₁ hQ
  · exact hh e w₁ hw₁
  · exact ⟨hw₁, hQ⟩

/-- `Except.ok <$> x` with its errors caught as values: a value it returns satisfies `Q`. -/
theorem attempt (hx : Spec I x Q) :
    Spec I (MonadExcept.tryCatch (Except.ok <$> x) fun e => pure (Except.error e))
      fun r => ∀ a, r = .ok a → Q a := by
  refine tryCatch ?_ fun _ => pure' fun _ h => by cases h
  rw [map_eq_pure_bind]
  exact hx.bind fun a ha => pure' fun _ h => by cases h; exact ha

theorem map {Q : β → Prop} (g : α → β) (hx : Spec I x fun a => Q (g a)) : Spec I (g <$> x) Q := by
  rw [map_eq_pure_bind]
  exact hx.bind fun _ h => pure' h

theorem mono (hx : Spec I x Q) (hQR : ∀ a, Q a → R a) : Spec I x R :=
  fun w hw => ⟨(hx w hw).1, fun a ha => hQR a ((hx w hw).2 a ha)⟩

/-- A loop whose body keeps a property of the accumulator keeps it. -/
theorem foldlM {γ : Type} {P : β → Prop} {g : β → γ → DbM β} (hg : ∀ b c, P b → Spec I (g b c) P) :
    ∀ (l : List γ) (init : β), P init → Spec I (l.foldlM g init) P
  | [], _, h => pure' h
  | c :: l, init, h => (hg init c h).bind fun b hb => foldlM hg l b hb

end Spec

/-- The invariant of an open database of namespace `ns`: typed versions, and in-memory
metadata of the current format and of `ns`. -/
def World.Ok (ns : Nat) (w : World) : Prop := w.Typed ns ∧ w.db.MetaOk ns

/-- The specifications the operations of an open database of namespace `ns` meet. -/
abbrev TypedSpec (ns : Nat) (p : DbM α) (Q : α → Prop) : Prop := Spec (World.Ok ns) p Q

theorem World.Typed.of_world {ns : Nat} {w w' : World} (hw : w.Typed ns)
    (h : Frame.world.rel w w') : w'.Typed ns := by
  obtain ⟨hdb, hb⟩ := h
  exact ⟨hdb ▸ hw.store, hdb ▸ hw.stored, hb ▸ hw.handles⟩

theorem World.Ok.of_world {ns : Nat} (w w' : World) (hw : w.Ok ns) (h : Frame.world.rel w w') :
    w'.Ok ns :=
  ⟨hw.1.of_world h, h.1 ▸ hw.2⟩

theorem TypedSpec.of_keeps {ns : Nat} {x : DbM α} (hx : Keeps Frame.world x) :
    TypedSpec ns x fun _ => True :=
  Spec.of_keeps World.Ok.of_world hx

/-! ## Primitive steps -/

section Primitive

variable {ns : Nat}

theorem typedSpec_getBatch (id : Nat) : TypedSpec ns (getBatch id) (·.typed ns = true) :=
  fun _ hw => ⟨hw, fun _ ha => by cases ha; exact hw.1.handles id⟩

theorem typedSpec_getDb : TypedSpec ns getDb (·.MetaOk ns) :=
  fun _ hw => ⟨hw, fun _ ha => by cases ha; exact hw.2⟩

theorem typedSpec_setBatch (id : Nat) {ba : Batch} (hba : ba.typed ns = true) :
    TypedSpec ns (setBatch id ba) fun _ => True :=
  fun _ hw => ⟨⟨hw.1.setBatch hba id, hw.2⟩, fun _ _ => trivial⟩

theorem typedSpec_batchWriteAt {b : WriteBatch} (hb : b.typed ns = true) {k : Key}
    {v : Option Value} (hv : batchWrite ns k v = true) (ts : Nat) :
    TypedSpec ns (batchWriteAt b k v ts) (·.typed ns = true) := by
  unfold batchWriteAt
  dsimp only
  split
  · exact Spec.bind (Q := fun _ => False) (.throw' _) fun _ h => h.elim
  · exact Spec.bind (Q := fun _ => True) (.pure' trivial) fun _ _ =>
      (TypedSpec.of_keeps keeps_tick).bind fun _ _ => .pure' (WriteBatch.typed_cons hb hv ts)

theorem typedSpec_batchSet {b : WriteBatch} (hb : b.typed ns = true) {k : Key} {v : Value}
    (hv : batchWrite ns k (some v) = true) : TypedSpec ns (batchSet b k v) (·.typed ns = true) :=
  typedSpec_batchWriteAt hb hv _

theorem typedSpec_batchDelete {b : WriteBatch} (hb : b.typed ns = true) {k : Key}
    (hk : batchWrite ns k none = true) : TypedSpec ns (batchDelete b k) (·.typed ns = true) :=
  typedSpec_batchWriteAt hb hk _

theorem typedSpec_batchDeleteAt {b : WriteBatch} (hb : b.typed ns = true) {k : Key}
    (hk : batchWrite ns k none = true) (ts : Nat) :
    TypedSpec ns (batchDeleteAt b k ts) (·.typed ns = true) :=
  typedSpec_batchWriteAt hb hk _

theorem typedSpec_txnSet {tx : Txn} (htx : tx.typed ns = true) {k : Key} {v : Value}
    (hv : k.admits ns v = true) : TypedSpec ns (txnSet tx k v) (·.typed ns = true) :=
  .bind (TypedSpec.of_keeps keeps_tick) fun _ _ => .pure' (Txn.typed_cons (v := some v) htx hv)

theorem typedSpec_txnDelete {tx : Txn} (htx : tx.typed ns = true) {k : Key}
    (hk : k.deletable = true) : TypedSpec ns (txnDelete tx k) (·.typed ns = true) :=
  .bind (TypedSpec.of_keeps keeps_tick) fun _ _ => .pure' (Txn.typed_cons (v := none) htx hk)

/-- A read of a typed transaction in a world with a typed store finds a value of the key's
format. -/
theorem spec_txnGet {I : World → Prop} (hI : ∀ w, I w → w.Typed ns)
    (hF : ∀ w w', I w → Frame.world.rel w w' → I w') {tx : Txn} (htx : tx.typed ns = true)
    (k : Key) : Spec I (txnGet tx k) fun r => ∀ ts v, r = some (ts, v) → k.admits ns v = true :=
  fun w hw => by
  refine ⟨hF _ _ hw (keeps_txnGet tx k w), fun r hr ts v hv => ?_⟩
  subst hv
  unfold txnGet at hr
  simp only [exec_bind, exec_ite, exec_throw, exec_pure] at hr
  split at hr
  · cases hr
  rcases htk : tick.exec w with ⟨_ | _, w₁⟩ <;> rw [htk] at hr
  · cases hr
  have hdb : w₁.db = w.db := (tick_ok htk).1
  dsimp only at hr
  split at hr
  · rename_i v' hl
    obtain ⟨l₁, l₂, hp, -⟩ := List.lookup_eq_some_iff.1 hl
    have : typedWrite ns k (some v') = true :=
      List.all_eq_true.1 htx _ (hp ▸ List.mem_append_right l₁ (List.mem_cons_self _ _))
    simp only [exec_pure, Prod.mk.injEq, Except.ok.injEq, Option.some.injEq] at hr
    rw [← hr.2]
    exact this
  · simp at hr
  · simp only [exec_bind, exec_getDb, exec_pure, Prod.mk.injEq, Except.ok.injEq] at hr
    exact Store.admits_of_get (hI w hw).store (hdb ▸ hr)

theorem typedSpec_txnGet {tx : Txn} (htx : tx.typed ns = true) (k : Key) :
    TypedSpec ns (txnGet tx k) fun r => ∀ ts v, r = some (ts, v) → k.admits ns v = true :=
  spec_txnGet (fun _ h => h.1) World.Ok.of_world htx k

theorem typedSpec_txnScan (tx : Txn) (p : Key → Bool) :
    TypedSpec ns (txnScan tx p) fun ks => ∀ k ∈ ks, p k = true :=
  fun _ hw => ⟨hw, fun _ ha k hk => by
    cases ha
    exact (Store.mem_scan.1 hk).1⟩

theorem typedSpec_batchFlush {b : WriteBatch} (hb : b.typed ns = true) :
    TypedSpec ns (batchFlush b) (·.typed ns = true) := fun w hw => by
  unfold batchFlush
  dsimp only
  have hrest : TypedSpec ns (tick >>= fun _ =>
      modifyDb (fun d => { d with store := d.store.flush b }) >>= fun _ =>
        pure { b with finished := true }) (·.typed ns = true) :=
    (TypedSpec.of_keeps keeps_tick).bind fun _ _ => Spec.bind (Q := fun _ => True)
      (fun w hw => ⟨⟨hw.1.flush hb, hw.2⟩, fun _ _ => trivial⟩) fun _ _ => .pure' hb
  split
  · exact Spec.bind (Q := fun _ => False) (.throw' _) (fun _ h => h.elim) w hw
  · exact Spec.bind (Q := fun _ => True) (.pure' trivial) (fun _ _ => hrest) w hw

theorem typedSpec_txnCommitAt {tx : Txn} (htx : tx.typed ns = true) :
    TypedSpec ns (txnCommitAt tx tsMetadata) fun _ => True :=
  .bind (TypedSpec.of_keeps keeps_tick) fun _ _ _ hw => ⟨⟨hw.1.commitAt htx, hw.2⟩, fun _ _ => trivial⟩

/-- A change of the in-memory metadata that keeps its format and namespace. -/
theorem typedSpec_modifyDb {f : Db → Db} (hf : ∀ d, (f d).store = d.store)
    (hm : ∀ d, d.MetaOk ns → (f d).MetaOk ns) : TypedSpec ns (modifyDb f) fun _ => True :=
  fun w hw => ⟨⟨⟨by simpa only [exec_modifyDb, hf] using hw.1.store,
    by simpa only [exec_modifyDb, hf] using hw.1.stored, hw.1.handles⟩, hm _ hw.2⟩,
    fun _ _ => trivial⟩

theorem typedSpec_metaSave {tx : Txn} (htx : tx.typed ns = true) :
    TypedSpec ns (metaSave tx) (·.typed ns = true) :=
  typedSpec_getDb.bind fun _ hd => typedSpec_txnSet htx (by
    simp only [Key.admits, hd.1, hd.2.1, Metadata.bounded_iff.2 hd.2.2, beq_self_eq_true,
      Bool.and_self])

theorem typedSpec_save (rm : RootsMetadata) {tx : Txn} (htx : tx.typed ns = true) :
    TypedSpec ns (rm.save tx) (·.typed ns = true) :=
  typedSpec_txnSet htx rfl

theorem typedSpec_loadRootsMetadata (tx : Txn) (version : Nat) :
    TypedSpec ns (loadRootsMetadata tx version) fun _ => True :=
  TypedSpec.of_keeps (keeps_loadRootsMetadata _ _)

theorem typedSpec_deleteKeys :
    ∀ {b : WriteBatch} (_ : b.typed ns = true) {ks : List Key}
      (_ : ∀ k ∈ ks, batchWrite ns k none = true),
      TypedSpec ns (deleteKeys b ks) (·.typed ns = true)
  | _, hb, [], _ => .pure' hb
  | _, hb, _ :: _, hks => (typedSpec_batchDelete hb (hks _ (.head _))).bind fun _ hb' =>
    typedSpec_deleteKeys hb' fun k hk => hks k (.tail _ hk)

end Primitive

end Mkvs.Badger
