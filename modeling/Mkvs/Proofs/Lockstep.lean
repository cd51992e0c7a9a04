import Mkvs.Proofs.BatchShape

/-!
# A retried batch in lockstep with the run it repeats

After a `Commit` fails, a fresh batch with the same calls runs from a store that may hold
what the failed call flushed: a list `X` of versions on top of the store the first run
started from. This module runs that retry (handle `idA`) beside the reference run, the
first batch with a working store (handle `idB`), and relates the two worlds at every call
by `RetryRel`: the same database but for `X`, and handles equal but for their restore-log
batches. `PutNode` is the one call where the runs part: the retry's read transaction may
find a node in `X` that the reference run logs, so the retry's restore log holds a part of
the reference one (`MnRel`).

## Rules

* `Lockstep.pure'`, `Lockstep.throw'`, `Lockstep.bind`, `Lockstep.ite`: two runs end
  together (`Outcomes`), failing with one error or returning related values.
* `lockstep_getDb_bind`, `lockstep_getBatch_bind`, `lockstep_setBatch`: the database and
  the handle as the two runs see them.
* `lockstep_tick`, `lockstep_txnGet`, `lockstep_txnSet`, `lockstep_batchSet`,
  `lockstep_batchSet_mn`: steps of the store and of the batches.
* `lockstep_putNode`, `lockstep_registerRoot`, `lockstep_reset`: the calls whose two runs
  read different restore-log batches.
* `newBatch_retry`, `lockstep_removeNodes`, `lockstep_putWriteLog`, `lockstep_commitPrepare`:
  the other calls of a batch, and `Commit` up to its flushes.
-/

namespace Mkvs.Badger

variable {α β γ δ : Type}

/-! ## Two runs that end together -/

/-- How two runs end together: both fail with one error, or both return values related by
`Q`; either way in worlds related by `R`. -/
def Outcomes (R : World → World → Prop) (Q : α → β → Prop) :
    Except Error α × World → Except Error β × World → Prop
  | (.ok a, wA), (.ok b, wB) => Q a b ∧ R wA wB
  | (.error eA, wA), (.error eB, wB) => eA = eB ∧ R wA wB
  | _, _ => False

/-- `p` and `q` run in lockstep: from worlds related by `R` they end together. -/
def Lockstep (R : World → World → Prop) (Q : α → β → Prop) (p : DbM α) (q : DbM β) : Prop :=
  ∀ wA wB, R wA wB → Outcomes R Q (p.exec wA) (q.exec wB)

/-- Of two results in lockstep, when the first is `ok a` so is the second. -/
theorem Outcomes.ok_left {R : World → World → Prop} {a : α} {wA : World}
    {y : Except Error α × World} (h : Outcomes R Eq (.ok a, wA) y) :
    ∃ wB, y = (.ok a, wB) ∧ R wA wB := by
  rcases y with ⟨_ | b, wB⟩
  · exact h.elim
  · exact ⟨wB, by rw [h.1], h.2⟩

namespace Lockstep

variable {R : World → World → Prop}

theorem pure' {Q : α → β → Prop} {a : α} {b : β} (h : Q a b) :
    Lockstep R Q (pure a) (pure b) :=
  fun _ _ hR => ⟨h, hR⟩

theorem throw' (e : Error) {Q : α → β → Prop} :
    Lockstep R Q (throw e : DbM α) (throw e : DbM β) :=
  fun _ _ hR => ⟨rfl, hR⟩

theorem bind {Q₁ : α → β → Prop} {Q : γ → δ → Prop} {x : DbM α} {y : DbM β}
    {f : α → DbM γ} {g : β → DbM δ} (hx : Lockstep R Q₁ x y)
    (hf : ∀ a b, Q₁ a b → Lockstep R Q (f a) (g b)) : Lockstep R Q (x >>= f) (y >>= g) := by
  intro wA wB hR
  have h := hx wA wB hR
  rw [exec_bind, exec_bind]
  revert h
  rcases x.exec wA with ⟨_ | a, wA'⟩ <;> rcases y.exec wB with ⟨_ | b, wB'⟩ <;> intro h
  · exact h
  · exact h.elim
  · exact h.elim
  · exact hf a b h.1 _ _ h.2

theorem ite {c : Prop} [Decidable c] {Q : α → β → Prop} {p p' : DbM α} {q q' : DbM β}
    (h : Lockstep R Q p q) (h' : Lockstep R Q p' q') :
    Lockstep R Q (if c then p else p') (if c then q else q') := by
  split <;> assumption

/-- A bind whose first parts return one value. -/
theorem bind_eq {Q : γ → δ → Prop} {x y : DbM α} {f : α → DbM γ} {g : α → DbM δ}
    (hx : Lockstep R Eq x y) (hf : ∀ a, Lockstep R Q (f a) (g a)) :
    Lockstep R Q (x >>= f) (y >>= g) :=
  hx.bind fun a _ h => h ▸ hf a

end Lockstep

/-! ## The retry against the reference run -/

/-- The restore-log batches of the retried handle (`mA`) and of the reference handle
(`mB`): both absent, or equal but for their entries, the retry's entries among the
reference ones, and all of them while the store holds nothing more (`X = []`). While
`live` (the calls before `Commit`), the reference batch is not finished. -/
inductive MnRel (X : List Entry) (live : Bool) : Option WriteBatch → Option WriteBatch → Prop
  | absent : MnRel X live none none
  | present {mA mB : WriteBatch} (same : mA = { mB with writes := mA.writes })
      (sub : mA.writes ⊆ mB.writes) (sup : X = [] → mB.writes ⊆ mA.writes)
      (unfinished : live = true → mB.finished = false) : MnRel X live (some mA) (some mB)

/-- Two handles equal but for their restore-log batches, which `MnRel` relates. -/
structure SlotRel (X : List Entry) (live : Bool) (baA baB : Batch) : Prop where
  same : baA = { baB with multipartNodes := baA.multipartNodes }
  mn : MnRel X live baA.multipartNodes baB.multipartNodes

/-- The retry's world (`wA`) against the reference run's (`wB`), fields:
* `faultA`, `faultB`: both stores work;
* `db`: one database, but for `X` on top of the retry's store;
* `slot`: the retry's handle `idA` and the reference handle `idB` are related by
  `SlotRel`. -/
structure RetryRel (X : List Entry) (live : Bool) (idA idB : Nat) (wA wB : World) : Prop where
  faultA : wA.fault = none
  faultB : wB.fault = none
  db : wA.db = { wB.db with store := ⟨X ++ wB.db.store.entries⟩ }
  slot : SlotRel X live (wA.batches idA) (wB.batches idB)

theorem MnRel.cons {X : List Entry} {live : Bool} {mA mB : WriteBatch}
    (h : MnRel X live (some mA) (some mB)) (e : Entry) :
    MnRel X live (some { mA with writes := e :: mA.writes })
      (some { mB with writes := e :: mB.writes }) := by
  cases h with
  | present same sub sup unfinished =>
    refine .present ?_ (List.cons_subset_cons _ sub) (fun hX => List.cons_subset_cons _ (sup hX))
      unfinished
    rw [same]

theorem MnRel.cancel {X : List Entry} {live : Bool} {mA mB : Option WriteBatch}
    (h : MnRel X live mA mB) : MnRel X false (mA.map WriteBatch.cancel) (mB.map WriteBatch.cancel) := by
  cases h with
  | absent => exact .absent
  | present same =>
    exact .present (by rw [same]; rfl) (List.Subset.refl _) (fun _ => List.Subset.refl _) nofun

/-- Once `Commit` starts, the reference batch may be finished. -/
theorem MnRel.settle {X : List Entry} {live : Bool} {mA mB : Option WriteBatch}
    (h : MnRel X live mA mB) : MnRel X false mA mB := by
  cases h with
  | absent => exact .absent
  | present same sub sup => exact .present same sub sup nofun

theorem SlotRel.bat_eq {X : List Entry} {live : Bool} {baA baB : Batch}
    (h : SlotRel X live baA baB) : baA.bat = baB.bat :=
  (congrArg Batch.bat h.same :)

/-- The restore logs of related handles: the retry's among the reference one's, all of it
while `X = []`, and the reference one unfinished when the retry's is. -/
theorem SlotRel.logWrites {X : List Entry} {live : Bool} {baA baB : Batch}
    (h : SlotRel X live baA baB) :
    baA.logWrites ⊆ baB.logWrites ∧ (X = [] → baB.logWrites ⊆ baA.logWrites) ∧
      ((∀ mn, baA.multipartNodes = some mn → mn.finished = false) →
        ∀ mn, baB.multipartNodes = some mn → mn.finished = false) := by
  obtain ⟨-, hmn⟩ := h
  unfold Batch.logWrites
  generalize baA.multipartNodes = mA at hmn ⊢
  generalize baB.multipartNodes = mB at hmn ⊢
  cases hmn with
  | absent => exact ⟨List.Subset.refl _, fun _ => List.Subset.refl _, fun _ _ => nofun⟩
  | present same sub sup =>
    refine ⟨sub, sup, fun hA mn hm => ?_⟩
    cases hm
    exact (congrArg WriteBatch.finished same).symm.trans (hA _ rfl)

theorem RetryRel.settle {X : List Entry} {live : Bool} {idA idB : Nat} {wA wB : World}
    (h : RetryRel X live idA idB wA wB) : RetryRel X false idA idB wA wB :=
  ⟨h.faultA, h.faultB, h.db, h.slot.same, h.slot.mn.settle⟩

section Retry

variable {X : List Entry} {live : Bool} {idA idB : Nat}

theorem RetryRel.exec_tick {wA wB : World} (hR : RetryRel X live idA idB wA wB) :
    tick.exec wA = (.ok (), wA) ∧ tick.exec wB = (.ok (), wB) := by
  simp only [tick, exec_bind, exec_get, hR.faultA, hR.faultB]
  exact ⟨rfl, rfl⟩

theorem lockstep_tick : Lockstep (RetryRel X live idA idB) Eq tick tick := fun _ _ hR => by
  rw [hR.exec_tick.1, hR.exec_tick.2]
  exact ⟨rfl, hR⟩

theorem lockstep_getDb_bind {Q : α → β → Prop} {f : Db → DbM α} {g : Db → DbM β}
    (h : ∀ d, Lockstep (RetryRel X live idA idB) Q (f { d with store := ⟨X ++ d.store.entries⟩ })
      (g d)) :
    Lockstep (RetryRel X live idA idB) Q (getDb >>= f) (getDb >>= g) := fun wA wB hR => by
  rw [exec_bind, exec_bind, exec_getDb, exec_getDb]
  dsimp only
  rw [hR.db]
  exact h _ _ _ hR

theorem lockstep_getBatch_bind {Q : α → β → Prop} {f : Batch → DbM α} {g : Batch → DbM β}
    (h : ∀ (ba : Batch) (mA mB : Option WriteBatch), MnRel X live mA mB → Lockstep (RetryRel X live idA idB) Q
      (f { ba with multipartNodes := mA }) (g { ba with multipartNodes := mB })) :
    Lockstep (RetryRel X live idA idB) Q (getBatch idA >>= f) (getBatch idB >>= g) :=
  fun wA wB hR => by
  rw [exec_bind, exec_bind, exec_getBatch, exec_getBatch]
  dsimp only
  have hs := hR.slot
  rw [hs.same]
  exact h (wB.batches idB) _ _ hs.mn _ _ hR

theorem lockstep_setBatch {baA baB : Batch} (h : SlotRel X live baA baB) :
    Lockstep (RetryRel X live idA idB) Eq (setBatch idA baA) (setBatch idB baB) :=
  fun _ _ hR => ⟨rfl, hR.faultA, hR.faultB, hR.db, by simpa only [if_pos] using h⟩

theorem RetryRel.setBatchB {wA wB : World} (hR : RetryRel X live idA idB wA wB) {baB : Batch}
    (h : SlotRel X live (wA.batches idA) baB) :
    RetryRel X live idA idB wA { wB with batches := fun i => if i = idB then baB else wB.batches i } :=
  ⟨hR.faultA, hR.faultB, hR.db, by simpa only [if_pos] using h⟩

/-- A `setBatch` on both sides, followed by two runs that know the handles it wrote. -/
theorem lockstep_setBatch_bind {baA baB : Batch} {Q : α → β → Prop} {f : Unit → DbM α}
    {g : Unit → DbM β} (h : SlotRel X live baA baB)
    (hf : ∀ wA wB, RetryRel X live idA idB wA wB → wA.batches idA = baA → wB.batches idB = baB →
      Outcomes (RetryRel X live idA idB) Q ((f ()).exec wA) ((g ()).exec wB)) :
    Lockstep (RetryRel X live idA idB) Q (setBatch idA baA >>= f) (setBatch idB baB >>= g) :=
  fun wA wB hR => by
  rw [exec_bind, exec_bind, exec_setBatch, exec_setBatch]
  exact hf _ _ (lockstep_setBatch h wA wB hR).2 (if_pos rfl) (if_pos rfl)

theorem lockstep_txnSet (tx : Txn) (k : Key) (v : Value) :
    Lockstep (RetryRel X live idA idB) Eq (txnSet tx k v) (txnSet tx k v) :=
  lockstep_tick.bind_eq fun _ => .pure' rfl

theorem lockstep_save (rm : RootsMetadata) (tx : Txn) :
    Lockstep (RetryRel X live idA idB) Eq (rm.save tx) (rm.save tx) :=
  lockstep_txnSet _ _ _

theorem lockstep_batchWriteAt (b : WriteBatch) (k : Key) (v : Option Value) (ts : Nat) :
    Lockstep (RetryRel X live idA idB) Eq (batchWriteAt b k v ts) (batchWriteAt b k v ts) := by
  unfold batchWriteAt
  repeat' with_reducible first
    | exact lockstep_tick | exact .pure' rfl | exact .throw' _
    | refine .bind_eq ?_ fun _ => ?_ | refine .ite ?_ ?_

theorem exec_batchWriteAt_of_open {w : World} (hf : w.fault = none) {b : WriteBatch}
    (hb : b.finished = false) (k : Key) (v : Option Value) (ts : Nat) :
    (batchWriteAt b k v ts).exec w = (.ok { b with writes := ⟨k, ts, v⟩ :: b.writes }, w) := by
  simp [batchWriteAt, exec_bind, hb, tick, hf]

theorem exec_batchSet_of_open {w : World} (hf : w.fault = none) {b : WriteBatch}
    (hb : b.finished = false) (k : Key) (v : Value) :
    (batchSet b k v).exec w = (.ok { b with writes := ⟨k, b.commitTs, some v⟩ :: b.writes }, w) :=
  exec_batchWriteAt_of_open hf hb _ _ _

theorem lockstep_batchSet_mn {mA mB : WriteBatch} (h : MnRel X live (some mA) (some mB)) (k : Key)
    (v : Value) : Lockstep (RetryRel X live idA idB) (fun a b => MnRel X live (some a) (some b))
      (batchSet mA k v) (batchSet mB k v) := by
  have hc : mA.commitTs = mB.commitTs ∧ mA.finished = mB.finished := by
    cases h with
    | present same => rw [same]; exact ⟨rfl, rfl⟩
  unfold batchSet batchWriteAt
  rw [hc.1, hc.2]
  repeat' with_reducible first
    | exact lockstep_tick | exact .pure' rfl | exact .throw' _
    | exact .pure' (by simpa only [hc.1, hc.2] using h.cons ⟨k, mB.commitTs, some v⟩)
    | refine .bind_eq ?_ fun _ => ?_ | refine .ite ?_ ?_

theorem lockstep_batchSet (b : WriteBatch) (k : Key) (v : Value) :
    Lockstep (RetryRel X live idA idB) Eq (batchSet b k v) (batchSet b k v) :=
  lockstep_batchWriteAt _ _ _ _

/-! ## Reads of the store

The retry reads the keys it shares with the reference run as the reference run does, as
long as `X` holds no version of them. -/

/-- Versions that each hold a value keep a read that finds a value finding one. -/
theorem Store.isSome_get_append {es : List Entry} {k : Key} {t : Nat}
    (h : ∀ e ∈ es, e.key = k → e.value.isSome) {s : Store} (hs : (s.get k t).isSome) :
    (Store.get ⟨es ++ s.entries⟩ k t).isSome := by
  unfold Store.get at hs ⊢
  rw [Store.latest_append]
  induction es with
  | nil => exact hs
  | cons e es ih =>
    rw [List.foldr_cons, pickLatest]
    by_cases hc : e.key = k ∧ e.ts ≤ t ∧ (es.foldr (pickLatest k t) (s.latest k t)).all (·.1 ≤ e.ts)
    · obtain ⟨v, hv⟩ := Option.isSome_iff_exists.mp (h e (List.mem_cons_self _ _) hc.1)
      rw [if_pos hc, hv]
      rfl
    · rw [if_neg hc]
      exact ih fun e he => h e (List.mem_cons_of_mem _ he)

theorem lockstep_txnGet (tx : Txn) {k : Key} (hk : ∀ e ∈ X, e.key ≠ k) :
    Lockstep (RetryRel X live idA idB) Eq (txnGet tx k) (txnGet tx k) := by
  unfold txnGet
  repeat' with_reducible first
    | exact lockstep_tick | exact .pure' rfl | exact .throw' _
    | exact lockstep_getDb_bind fun d =>
        .pure' (Store.get_append_of_not_visible (fun e he => .inl (hk e he)) d.store)
    | refine .bind_eq ?_ fun _ => ?_ | refine .ite ?_ ?_ | split

section FromHandle

variable (hX : ∀ e ∈ X, e.FromHandle)
include hX

/-- The read of a node in `PutNode`, a failing read counting as found: it changes no world,
and the retry finds every node the reference run finds, and only those while `X = []`. -/
theorem RetryRel.exec_found {wA wB : World} (hR : RetryRel X live idA idB wA wB) (rt : Txn) (h : Hash) :
    ∃ a b, (tryCatch (Option.isSome <$> txnGet rt (.node h)) fun _ => pure true).exec wA = (.ok a, wA) ∧
      (tryCatch (Option.isSome <$> txnGet rt (.node h)) fun _ => pure true).exec wB = (.ok b, wB) ∧
      (b = true → a = true) ∧ (X = [] → a = b) := by
  unfold txnGet
  rcases hd : rt.discarded
  · rcases hl : rt.pending.lookup (.node h) with _ | _ | v
    · simp only [exec_tryCatch, exec_map, exec_bind, exec_ite, hd, hR.exec_tick, hl, exec_getDb,
        exec_pure, hR.db, Except.map]
      refine ⟨_, _, rfl, rfl, fun hb => Store.isSome_get_append (fun e he hk => ?_) hb, fun h0 => ?_⟩
      · rcases hX e he with ⟨-, hv⟩ | hk'
        · exact hv
        · rw [hk] at hk'; cases hk'
      · subst h0; rfl
    · simp only [exec_tryCatch, exec_map, exec_bind, exec_ite, hd, hR.exec_tick, hl, exec_pure,
        Except.map]
      exact ⟨_, _, rfl, rfl, id, fun _ => rfl⟩
    · simp only [exec_tryCatch, exec_map, exec_bind, exec_ite, hd, hR.exec_tick, hl, exec_pure,
        Except.map]
      exact ⟨_, _, rfl, rfl, id, fun _ => rfl⟩
  · simp only [exec_tryCatch, exec_map, exec_bind, exec_ite, hd, exec_throw, Except.map]
    exact ⟨_, _, rfl, rfl, id, fun _ => rfl⟩

theorem lockstep_loadRootsMetadata (tx : Txn) (version : Nat) :
    Lockstep (RetryRel X live idA idB) Eq (loadRootsMetadata tx version)
      (loadRootsMetadata tx version) := by
  unfold loadRootsMetadata
  refine (lockstep_txnGet tx fun e he =>
    (hX e he).key_ne (k := .rootsMetadata version) rfl rfl).bind_eq fun _ => ?_
  repeat' first | exact .pure' rfl | exact .throw' _ | split

end FromHandle

theorem lockstep_sanityCheckNamespace (ns : Nat) :
    Lockstep (RetryRel X live idA idB) Eq (sanityCheckNamespace ns) (sanityCheckNamespace ns) := by
  unfold sanityCheckNamespace
  exact lockstep_getDb_bind fun _ => .ite (.throw' _) (.pure' rfl)

theorem lockstep_commitChecks (ba : Batch) (mA mB : Option WriteBatch) (root : Root) :
    Lockstep (RetryRel X live idA idB) Eq (Batch.commitChecks { ba with multipartNodes := mA } root)
      (Batch.commitChecks { ba with multipartNodes := mB } root) := by
  unfold Batch.commitChecks
  refine lockstep_getDb_bind fun _ => ?_
  dsimp only
  repeat' with_reducible first
    | exact .pure' rfl | exact .throw' _ | exact lockstep_sanityCheckNamespace _
    | refine .bind_eq ?_ fun _ => ?_ | refine .ite ?_ ?_ | split

/-! ## The batch calls -/

/-- `NewBatch` from worlds that agree but for `X`: when it succeeds in the reference run it
succeeds in the retry, and the two fresh handles are related. -/
theorem newBatch_retry {oldRoot : Root} {version : Nat} {chunk : Bool} {wA wB wB' : World}
    (hfA : wA.fault = none) (hfB : wB.fault = none)
    (hdb : wA.db = { wB.db with store := ⟨X ++ wB.db.store.entries⟩ })
    (h : (newBatch idB oldRoot version chunk).exec wB = (.ok (), wB')) :
    ∃ wA', (newBatch idA oldRoot version chunk).exec wA = (.ok (), wA') ∧
      RetryRel X true idA idB wA' wB' := by
  unfold newBatch at h ⊢
  simp only [exec_bind, exec_getDb, exec_ite, exec_throw, exec_pure, exec_setBatch, hdb] at h ⊢
  -- the checks read the same fields of both databases; the reference run passed them
  split at h
  · cases h
  split at h
  · cases h
  split at h
  · cases h
  rename_i h₁ h₂ h₃
  rw [if_neg h₁, if_neg h₂, if_neg h₃]
  obtain ⟨-, rfl⟩ := Prod.mk.inj h
  refine ⟨_, rfl, hfA, hfB, rfl, ?_⟩
  simp only [if_pos]
  split
  · exact ⟨rfl, .present rfl (List.Subset.refl _) (fun _ => List.Subset.refl _) fun _ => rfl⟩
  · exact ⟨rfl, .absent⟩

theorem lockstep_removeNodes (hs : List Hash) :
    Lockstep (RetryRel X live idA idB) Eq (Batch.removeNodes idA hs) (Batch.removeNodes idB hs) := by
  unfold Batch.removeNodes
  refine lockstep_getBatch_bind fun _ _ _ hmn => ?_
  dsimp only
  repeat' with_reducible first
    | exact .pure' rfl | exact .throw' _ | exact lockstep_setBatch ⟨rfl, hmn⟩
    | refine .bind_eq ?_ fun _ => ?_ | refine .ite ?_ ?_

theorem lockstep_putWriteLog (wl : Option WriteLog) (ann : Option Annotations) :
    Lockstep (RetryRel X live idA idB) Eq (Batch.putWriteLog idA wl ann)
      (Batch.putWriteLog idB wl ann) := by
  unfold Batch.putWriteLog
  refine lockstep_getBatch_bind fun _ _ _ hmn => ?_
  dsimp only
  repeat' with_reducible first
    | exact .pure' rfl | exact .throw' _ | exact lockstep_setBatch ⟨rfl, hmn⟩
    | exact lockstep_getDb_bind fun _ => .ite (.pure' rfl) (lockstep_setBatch ⟨rfl, hmn⟩)
    | refine .bind_eq ?_ fun _ => ?_ | refine .ite ?_ ?_

theorem lockstep_registerRoot (rootHash : TypedHash) :
    Lockstep (RetryRel X live idA idB) Eq (Batch.registerRoot idA rootHash)
      (Batch.registerRoot idB rootHash) := by
  unfold Batch.registerRoot
  refine lockstep_getBatch_bind fun _ _ _ hmn => ?_
  refine (lockstep_batchSet _ _ _).bind_eq fun _ => (lockstep_setBatch ⟨rfl, hmn⟩).bind_eq fun _ => ?_
  cases hmn with
  | absent => exact .pure' rfl
  | present same sub sup u =>
    exact (lockstep_batchSet_mn (.present same sub sup u) _ _).bind fun _ _ h =>
      lockstep_getBatch_bind fun _ _ _ _ => lockstep_setBatch ⟨rfl, h⟩

theorem lockstep_reset :
    Lockstep (RetryRel X false idA idB) Eq (Batch.reset idA) (Batch.reset idB) := by
  unfold Batch.reset
  refine lockstep_getBatch_bind fun _ _ _ hmn => ?_
  cases hmn with
  | absent => exact lockstep_setBatch ⟨rfl, .absent⟩
  | present same sub sup u => exact lockstep_setBatch ⟨rfl, (MnRel.present same sub sup u).cancel⟩

/-! ## `PutNode`

The retry's read transaction finds every node the reference run's finds, and may find one
more in `X`: then the reference run logs the node and the retry does not. -/

section PutNode

variable (hX : ∀ e ∈ X, e.FromHandle)
include hX

theorem lockstep_putNode (n : Node) :
    Lockstep (RetryRel X true idA idB) Eq (Batch.putNode idA n) (Batch.putNode idB n) := by
  have tail : Lockstep (RetryRel X true idA idB) Eq
      (do let ba ← getBatch idA; let bat ← batchSet ba.bat (.node n.getHash) (.node n)
          setBatch idA { ba with bat })
      (do let ba ← getBatch idB; let bat ← batchSet ba.bat (.node n.getHash) (.node n)
          setBatch idB { ba with bat }) :=
    lockstep_getBatch_bind fun _ _ _ hmn =>
      (lockstep_batchSet _ _ _).bind_eq fun _ => lockstep_setBatch ⟨rfl, hmn⟩
  unfold Batch.putNode
  refine lockstep_getBatch_bind fun ba mA mB hmn => ?_
  refine lockstep_setBatch_bind ⟨rfl, hmn⟩ fun wA wB hR hA hB => ?_
  rcases hmn with _ | ⟨same, sub, sup, unfinished⟩
  · exact (Lockstep.bind_eq (.pure' rfl) fun _ => tail) _ _ hR
  rcases hrt : ba.readTxn with _ | rt
  · exact (Lockstep.bind_eq (.pure' rfl) fun _ => tail) _ _ hR
  dsimp only
  rw [exec_bind, exec_bind]
  obtain ⟨a, b, hfa, hfb, hab, h0⟩ := hR.exec_found hX rt n.getHash
  rw [hfa, hfb]
  dsimp only
  obtain rfl | ⟨rfl, rfl⟩ : a = b ∨ a = true ∧ b = false := by
    cases a <;> cases b <;> first | exact .inl rfl | exact .inr ⟨rfl, rfl⟩ | exact absurd (hab rfl) nofun
  · exact (Lockstep.ite ((lockstep_batchSet_mn (.present same sub sup unfinished) _ _).bind
      fun _ _ h => lockstep_getBatch_bind fun _ _ _ _ => (lockstep_setBatch ⟨rfl, h⟩).bind_eq
        fun _ => tail) (Lockstep.bind_eq (.pure' rfl) fun _ => tail)) _ _ hR
  -- the retry finds the node in what the failed call flushed; the reference run logs it
  rw [exec_ite, exec_ite, if_neg (show ¬(!true) = true from nofun),
    if_pos (show (!false) = true from rfl), exec_bind, exec_pure, exec_bind,
    exec_batchSet_of_open hR.faultB (unfinished rfl)]
  dsimp only
  conv => arg 4; rw [exec_bind, exec_getBatch]; dsimp only; rw [exec_bind, exec_setBatch]; dsimp only
  rw [hB]
  refine tail _ _ (hR.setBatchB ?_)
  rw [hA]
  exact ⟨rfl, .present (by rw [same]) (sub.trans (List.subset_cons_self _ _))
    (fun hX => absurd (h0 hX) nofun) fun _ => unfinished rfl⟩

end PutNode

/-! ## The first part of `Commit` -/

section Prepare

variable (hX : ∀ e ∈ X, e.FromHandle)
include hX

theorem lockstep_linkOldRoot (oldRoot : Root) (rootHash : TypedHash) (version : Nat) (tx : Txn) :
    Lockstep (RetryRel X live idA idB) Eq (Batch.linkOldRoot oldRoot rootHash version tx)
      (Batch.linkOldRoot oldRoot rootHash version tx) := by
  unfold Batch.linkOldRoot
  repeat' with_reducible first
    | exact .pure' rfl | exact .throw' _ | exact lockstep_loadRootsMetadata hX _ _
    | exact lockstep_save _ _
    | (refine lockstep_getDb_bind fun _ => ?_; dsimp only)
    | refine .bind_eq ?_ fun _ => ?_ | refine .ite ?_ ?_ | split

theorem lockstep_commitLinks (root : Root) (rootHash : TypedHash) (tx : Txn) :
    Lockstep (RetryRel X live idA idB) Eq (Batch.commitLinks idA root rootHash tx)
      (Batch.commitLinks idB root rootHash tx) := by
  unfold Batch.commitLinks
  refine lockstep_getBatch_bind fun _ _ _ hmn => ?_
  dsimp only
  repeat' with_reducible first
    | exact .pure' rfl | exact .throw' _ | exact lockstep_linkOldRoot hX _ _ _ _
    | exact lockstep_txnSet _ _ _ | exact lockstep_batchSet _ _ _
    | exact lockstep_setBatch ⟨rfl, hmn⟩
    | refine .bind_eq ?_ fun _ => ?_ | refine .ite ?_ ?_ | split

/-- The checks, the roots metadata and the writes of `Commit` before its flushes run alike
in the retry and in the reference run, and build one transaction. -/
theorem lockstep_commitPrepare (root : Root) :
    Lockstep (RetryRel X false idA idB) Eq (commitPrepare idA root) (commitPrepare idB root) := by
  unfold commitPrepare
  refine lockstep_getBatch_bind fun _ _ _ _ => ?_
  refine (lockstep_commitChecks _ _ _ _).bind_eq fun _ => ?_
  repeat' with_reducible first
    | exact .pure' rfl | exact .throw' _ | exact lockstep_loadRootsMetadata hX _ _
    | exact lockstep_registerRoot _ | exact lockstep_reset | exact lockstep_txnSet _ _ _
    | exact lockstep_save _ _
    | exact lockstep_commitLinks hX _ _ _
    | (refine lockstep_getBatch_bind fun _ _ _ _ => ?_; dsimp only)
    | refine .bind_eq ?_ fun _ => ?_ | refine .ite ?_ ?_

end Prepare

end Retry

end Mkvs.Badger
