import Mkvs.System

/-!
# Frames of the database's operations

What an operation may change, stated once per primitive and carried through the `do`
blocks of the operations.

A `Frame` is a relation between the world before and after a program that every step of
the fault plan respects: reflexive, transitive, and blind to the fault plan. `Keeps F p`
says that every run of `p`, whatever it returns, ends in a world `F`-related to the one it
started in. Reads, ticks and the local transactions and write batches keep every frame;
the only steps that change the database are `modifyDb` (the metadata setters), `Flush`
and `CommitAt` (the store), and `setBatch` (the batch handles).

## Frames used in the proofs

* `Frame.world`: neither the database nor a batch handle changes. Everything an
  operation does before it flushes keeps it (`Keeps.finalizeBatch`, `Keeps.pruneBatch`).
* `Frame.db`: the database does not change. The batch operations keep it.
* `Frame.versions`: the earliest and last finalized versions do not change. Every
  operation but `Finalize`, `Prune` and `New` keeps it.
-/

namespace Mkvs.Badger

variable {α β : Type}

/-! ## Running a program -/

@[simp] theorem exec_pure (a : α) (w : World) : (pure a : DbM α).exec w = (.ok a, w) := rfl

@[simp] theorem exec_throw (e : Error) (w : World) :
    (throw e : DbM α).exec w = (.error e, w) := rfl

@[simp] theorem exec_get (w : World) : (get : DbM World).exec w = (.ok w, w) := rfl

@[simp] theorem exec_getDb (w : World) : getDb.exec w = (.ok w.db, w) := rfl

@[simp] theorem exec_modifyDb (f : Db → Db) (w : World) :
    (modifyDb f).exec w = (.ok (), { w with db := f w.db }) := rfl

@[simp] theorem exec_ite {c : Prop} [Decidable c] (a b : DbM α) (w : World) :
    (if c then a else b).exec w = if c then a.exec w else b.exec w := by
  split <;> rfl

@[simp] theorem throw_bind (e : Error) (f : α → DbM β) : (throw e >>= f : DbM β) = throw e :=
  rfl

theorem exec_bind (x : DbM α) (f : α → DbM β) (w : World) :
    (x >>= f).exec w = match x.exec w with
      | (.ok a, w') => (f a).exec w'
      | (.error e, w') => (.error e, w') := by
  simp only [DbM.exec, ExceptT.run_bind, StateT.run_bind]
  rcases x.run.run w with ⟨_ | _, w'⟩ <;> rfl

theorem exec_tryCatch (x : DbM α) (h : Error → DbM α) (w : World) :
    (tryCatch x h).exec w = match x.exec w with
      | (.ok a, w') => (.ok a, w')
      | (.error e, w') => (h e).exec w' := by
  show (ExceptT.tryCatch x h).run.run w = _
  simp only [DbM.exec, ExceptT.tryCatch, ExceptT.run_mk, StateT.run_bind]
  show (x.run.run w >>= _) = _
  rcases x.run.run w with ⟨_ | _, w'⟩ <;> rfl

@[simp] theorem exec_map (f : α → β) (x : DbM α) (w : World) :
    (f <$> x).exec w = ((x.exec w).1.map f, (x.exec w).2) := by
  rw [map_eq_pure_bind, exec_bind]
  rcases x.exec w with ⟨_ | _, w'⟩ <;> rfl

/-- A bind that succeeds ran both its parts successfully. -/
theorem exec_bind_ok {x : DbM α} {f : α → DbM β} {w w' : World} {b : β}
    (h : (x >>= f).exec w = (.ok b, w')) :
    ∃ a w₁, x.exec w = (.ok a, w₁) ∧ (f a).exec w₁ = (.ok b, w') := by
  rw [exec_bind] at h
  rcases hx : x.exec w with ⟨e | a, w₁⟩ <;> rw [hx] at h
  · cases h
  · exact ⟨a, w₁, rfl, h⟩

/-- A bind that fails failed in its first part, or in its second after the first
succeeded. -/
theorem exec_bind_error {x : DbM α} {f : α → DbM β} {w w' : World} {e : Error}
    (h : (x >>= f).exec w = (.error e, w')) :
    x.exec w = (.error e, w') ∨
      ∃ a w₁, x.exec w = (.ok a, w₁) ∧ (f a).exec w₁ = (.error e, w') := by
  rw [exec_bind] at h
  rcases hx : x.exec w with ⟨e' | a, w₁⟩ <;> rw [hx] at h
  · simp only [Prod.mk.injEq, Except.error.injEq] at h
    obtain ⟨rfl, rfl⟩ := h
    exact .inl rfl
  · exact .inr ⟨a, w₁, rfl, h⟩

/-! ## Frames -/

/-- A relation between the world before and after a program that the fault plan's steps
respect. -/
structure Frame where
  rel : World → World → Prop
  refl : ∀ w, rel w w
  trans : ∀ {a b c}, rel a b → rel b c → rel a c
  fault : ∀ w n, rel w { w with fault := n }

/-- Every run of `p` ends in a world related to the one it started in. -/
def Keeps (F : Frame) (p : DbM α) : Prop := ∀ w, F.rel w (p.exec w).2

namespace Keeps

variable {F G : Frame}

theorem mono (hFG : ∀ w w', F.rel w w' → G.rel w w') {p : DbM α} (hp : Keeps F p) :
    Keeps G p :=
  fun w => hFG _ _ (hp w)

theorem pure' (a : α) : Keeps F (pure a) := fun w => F.refl w

theorem throw' (e : Error) : Keeps F (throw e : DbM α) := fun w => F.refl w

theorem bind {x : DbM α} {f : α → DbM β} (hx : Keeps F x) (hf : ∀ a, Keeps F (f a)) :
    Keeps F (x >>= f) := by
  intro w
  rw [exec_bind]
  have := hx w
  rcases hr : x.exec w with ⟨_ | a, w'⟩ <;> rw [hr] at this
  · exact this
  · exact F.trans this (hf a w')

theorem ite {c : Prop} [Decidable c] {x y : DbM α} (hx : Keeps F x) (hy : Keeps F y) :
    Keeps F (if c then x else y) := by
  split <;> assumption

theorem tryCatch {x : DbM α} {h : Error → DbM α} (hx : Keeps F x) (hh : ∀ e, Keeps F (h e)) :
    Keeps F (tryCatch x h) := by
  intro w
  rw [exec_tryCatch]
  have := hx w
  rcases hr : x.exec w with ⟨e | a, w'⟩ <;> rw [hr] at this
  · exact F.trans this (hh e w')
  · exact this

theorem map {x : DbM α} (f : α → β) (hx : Keeps F x) : Keeps F (f <$> x) := by
  rw [map_eq_pure_bind]
  exact hx.bind fun _ => pure' _

theorem foldlM {γ : Type} {f : β → γ → DbM β} (hf : ∀ b c, Keeps F (f b c)) :
    ∀ (l : List γ) (init : β), Keeps F (l.foldlM f init)
  | [], _ => pure' _
  | c :: l, init => (hf init c).bind fun b => foldlM hf l b

/-- The world a run of `p` ends in is related to the one it started in. -/
theorem rel_of_exec {p : DbM α} (hp : Keeps F p) {w w' : World} {r : Except Error α}
    (h : p.exec w = (r, w')) : F.rel w w' := by
  simpa only [h] using hp w

end Keeps

variable {F : Frame}

theorem keeps_tick : Keeps F tick := by
  intro w
  unfold tick
  rw [exec_bind, exec_get]
  dsimp only
  split
  · exact F.refl w
  · exact F.fault w _
  · exact F.refl w

theorem keeps_getDb : Keeps F getDb := fun w => F.refl w

theorem keeps_getBatch (id : Nat) : Keeps F (getBatch id) := fun w => F.refl w

/-- With a working store, a fresh transaction reads the store at its timestamp. -/
theorem txnGet_new_exec {w : World} (hf : w.fault = none) (ts : Nat) (k : Key) :
    (txnGet (Txn.new ts) k).exec w = (.ok (w.db.store.get k ts), w) := by
  simp [txnGet, Txn.new, tick, exec_bind, hf, Except.map]

/-! ## Reads and local writes keep every frame -/

theorem keeps_txnGet (tx : Txn) (k : Key) : Keeps F (txnGet tx k) := by
  unfold txnGet
  dsimp only
  repeat' with_reducible first
    | exact keeps_tick | exact .pure' _ | exact .throw' _ | exact keeps_getDb
    | refine .bind ?_ fun _ => ?_
    | refine .ite ?_ ?_
    | split

theorem keeps_txnSet (tx : Txn) (k : Key) (v : Value) : Keeps F (txnSet tx k v) :=
  keeps_tick.bind fun _ => .pure' _

theorem keeps_txnDelete (tx : Txn) (k : Key) : Keeps F (txnDelete tx k) :=
  keeps_tick.bind fun _ => .pure' _

theorem keeps_txnScan (tx : Txn) (p : Key → Bool) : Keeps F (txnScan tx p) :=
  keeps_getDb.bind fun _ => .pure' _

theorem keeps_batchWriteAt (b : WriteBatch) (k : Key) (v : Option Value) (ts : Nat) :
    Keeps F (batchWriteAt b k v ts) := by
  unfold batchWriteAt
  dsimp only
  split
  · exact (Keeps.throw' _).bind fun _ => keeps_tick.bind fun _ => .pure' _
  · exact (Keeps.pure' _).bind fun _ => keeps_tick.bind fun _ => .pure' _

theorem keeps_batchSet (b : WriteBatch) (k : Key) (v : Value) : Keeps F (batchSet b k v) :=
  keeps_batchWriteAt _ _ _ _

theorem keeps_batchDelete (b : WriteBatch) (k : Key) : Keeps F (batchDelete b k) :=
  keeps_batchWriteAt _ _ _ _

theorem keeps_batchDeleteAt (b : WriteBatch) (k : Key) (ts : Nat) :
    Keeps F (batchDeleteAt b k ts) :=
  keeps_batchWriteAt _ _ _ _

theorem keeps_deleteKeys : ∀ (b : WriteBatch) (ks : List Key), Keeps F (deleteKeys b ks)
  | _, [] => .pure' _
  | b, _ :: ks => (keeps_batchDelete b _).bind fun b' => keeps_deleteKeys b' ks

theorem keeps_loadRootsMetadata (tx : Txn) (version : Nat) :
    Keeps F (loadRootsMetadata tx version) := by
  unfold loadRootsMetadata
  refine (keeps_txnGet _ _).bind fun _ => ?_
  split <;> first | exact .pure' _ | exact .throw' _

theorem keeps_save (rm : RootsMetadata) (tx : Txn) : Keeps F (rm.save tx) := keeps_txnSet _ _ _

theorem keeps_metaSave (tx : Txn) : Keeps F (metaSave tx) :=
  keeps_getDb.bind fun _ => keeps_txnSet _ _ _

theorem keeps_sanityCheckNamespace (ns : Nat) : Keeps F (sanityCheckNamespace ns) := by
  unfold sanityCheckNamespace
  exact keeps_getDb.bind fun _ => by split <;> first | exact .pure' _ | exact .throw' _

theorem keeps_checkRoot (tx : Txn) (root : Root) : Keeps F (checkRoot tx root) := by
  unfold checkRoot
  exact (keeps_txnGet _ _).bind fun _ => by split <;> first | exact .pure' _ | exact .throw' _

theorem keeps_getNode (root : Root) (h : Hash) : Keeps F (getNode root h) := by
  unfold getNode
  dsimp only
  repeat' with_reducible first
    | exact .pure' _ | exact .throw' _ | exact keeps_getDb | exact keeps_txnGet _ _
    | exact keeps_checkRoot _ _ | exact keeps_sanityCheckNamespace _
    | refine .bind ?_ fun _ => ?_
    | refine .ite ?_ ?_
    | split

/-! ## Steps that change the database -/

theorem keeps_modifyDb {f : Db → Db} (hf : ∀ w, F.rel w { w with db := f w.db }) :
    Keeps F (modifyDb f) := hf

theorem keeps_setBatch {id : Nat} {ba : Batch}
    (hF : ∀ w (bs : Nat → Batch), F.rel w { w with batches := bs }) :
    Keeps F (setBatch id ba) :=
  fun w => hF w _

section Store

variable (hF : ∀ w (st : Store), F.rel w { w with db := { w.db with store := st } })
include hF

theorem keeps_txnCommitAt (tx : Txn) (ts : Nat) : Keeps F (txnCommitAt tx ts) :=
  keeps_tick.bind fun _ => keeps_modifyDb fun w => hF w _

theorem keeps_batchFlush (b : WriteBatch) : Keeps F (batchFlush b) := by
  unfold batchFlush
  dsimp only
  split
  · exact (Keeps.throw' _).bind fun _ => keeps_tick.bind fun _ =>
      (keeps_modifyDb fun w => hF w _).bind fun _ => .pure' _
  · exact (Keeps.pure' _).bind fun _ => keeps_tick.bind fun _ =>
      (keeps_modifyDb fun w => hF w _).bind fun _ => .pure' _

end Store

/-! ## The frames -/

/-- Neither the database nor a batch handle changes. -/
def Frame.world : Frame where
  rel w w' := w'.db = w.db ∧ w'.batches = w.batches
  refl _ := ⟨rfl, rfl⟩
  trans h₁ h₂ := ⟨h₂.1.trans h₁.1, h₂.2.trans h₁.2⟩
  fault _ _ := ⟨rfl, rfl⟩

/-- The database does not change; batch handles may. -/
def Frame.db : Frame where
  rel w w' := w'.db = w.db
  refl _ := rfl
  trans h₁ h₂ := h₂.trans h₁
  fault _ _ := rfl

/-- The earliest and the last finalized version do not change. -/
def Frame.versions : Frame where
  rel w w' := w'.db.meta.earliestVersion = w.db.meta.earliestVersion ∧
    w'.db.meta.lastFinalizedVersion = w.db.meta.lastFinalizedVersion
  refl _ := ⟨rfl, rfl⟩
  trans h₁ h₂ := ⟨h₂.1.trans h₁.1, h₂.2.trans h₁.2⟩
  fault _ _ := ⟨rfl, rfl⟩

theorem Frame.db_of_world {w w' : World} (h : Frame.world.rel w w') : Frame.db.rel w w' := h.1

theorem Frame.versions_of_db {w w' : World} (h : Frame.db.rel w w') :
    Frame.versions.rel w w' := by
  change w'.db = w.db at h
  exact ⟨by rw [h], by rw [h]⟩

/-! ## Batch operations keep the database -/

theorem keeps_setBatch_db (id : Nat) (ba : Batch) : Keeps Frame.db (setBatch id ba) :=
  keeps_setBatch fun _ _ => rfl

theorem keeps_newBatch (id : Nat) (oldRoot : Root) (version : Nat) (chunk : Bool) :
    Keeps Frame.db (newBatch id oldRoot version chunk) := by
  unfold newBatch
  dsimp only
  repeat' with_reducible first
    | exact .pure' _ | exact .throw' _ | exact keeps_getDb | exact keeps_setBatch_db _ _
    | refine .bind ?_ fun _ => ?_
    | refine .ite ?_ ?_

theorem keeps_putWriteLog (id : Nat) (wl : Option WriteLog) (ann : Option Annotations) :
    Keeps Frame.db (Batch.putWriteLog id wl ann) := by
  unfold Batch.putWriteLog
  dsimp only
  repeat' with_reducible first
    | exact .pure' _ | exact .throw' _ | exact keeps_getDb | exact keeps_getBatch _
    | exact keeps_setBatch_db _ _
    | refine .bind ?_ fun _ => ?_
    | refine .ite ?_ ?_

theorem keeps_removeNodes (id : Nat) (hs : List Hash) :
    Keeps Frame.db (Batch.removeNodes id hs) := by
  unfold Batch.removeNodes
  dsimp only
  repeat' with_reducible first
    | exact .pure' _ | exact .throw' _ | exact keeps_getBatch _ | exact keeps_setBatch_db _ _
    | refine .bind ?_ fun _ => ?_
    | refine .ite ?_ ?_

theorem keeps_putNode (id : Nat) (n : Node) : Keeps Frame.db (Batch.putNode id n) := by
  unfold Batch.putNode
  dsimp only
  repeat' with_reducible first
    | exact .pure' _ | exact .throw' _ | exact keeps_getBatch _ | exact keeps_setBatch_db _ _
    | exact keeps_batchSet _ _ _ | exact (keeps_txnGet _ _).map _
    | refine .tryCatch ?_ fun _ => ?_
    | refine .bind ?_ fun _ => ?_
    | refine .ite ?_ ?_
    | split

theorem keeps_reset (id : Nat) : Keeps Frame.db (Batch.reset id) :=
  (keeps_getBatch _).bind fun _ => keeps_setBatch_db _ _

/-! ## Everything before a flush keeps every frame -/

theorem keeps_commitChecks (ba : Batch) (root : Root) : Keeps F (Batch.commitChecks ba root) := by
  unfold Batch.commitChecks
  dsimp only
  repeat' with_reducible first
    | exact .pure' _ | exact .throw' _ | exact keeps_getDb | exact keeps_sanityCheckNamespace _
    | refine .bind ?_ fun _ => ?_
    | refine .ite ?_ ?_
    | split

theorem keeps_linkOldRoot (oldRoot : Root) (rootHash : TypedHash) (version : Nat) (tx : Txn) :
    Keeps F (Batch.linkOldRoot oldRoot rootHash version tx) := by
  unfold Batch.linkOldRoot
  dsimp only
  repeat' with_reducible first
    | exact .pure' _ | exact .throw' _ | exact keeps_getDb | exact keeps_loadRootsMetadata _ _
    | exact keeps_save _ _
    | refine .bind ?_ fun _ => ?_
    | refine .ite ?_ ?_
    | split

theorem keeps_cleanLogEntry (removeNodes : Bool) (b : WriteBatch) (key : Key) :
    Keeps F (cleanLogEntry removeNodes b key) := by
  unfold cleanLogEntry
  repeat' with_reducible first
    | exact .pure' _ | exact .throw' _ | exact keeps_batchDelete _ _
    | exact keeps_batchDeleteAt _ _ _
    | refine .bind ?_ fun _ => ?_
    | refine .ite ?_ ?_
    | split

theorem keeps_cleanLogEntries (removeNodes : Bool) :
    ∀ (b : WriteBatch) (keys : List Key), Keeps F (cleanLogEntries removeNodes b keys)
  | _, [] => .pure' _
  | b, key :: keys => (keeps_cleanLogEntry removeNodes b key).bind fun b' =>
    keeps_cleanLogEntries removeNodes b' keys

theorem keeps_finalizeChecks (roots : List Root) : Keeps F (finalizeChecks roots) := by
  unfold finalizeChecks
  dsimp only
  repeat' with_reducible first
    | exact .pure' _ | exact .throw' _ | exact keeps_getDb
    | refine .bind ?_ fun _ => ?_
    | refine .ite ?_ ?_
    | split

theorem keeps_finalizeRoot (version : Nat) (finalizedRoots : List TypedHash) (acc : FinalizeAcc)
    (rootHash : TypedHash) : Keeps F (finalizeRoot version finalizedRoots acc rootHash) := by
  unfold finalizeRoot
  dsimp only
  repeat' with_reducible first
    | exact .pure' _ | exact .throw' _ | exact keeps_getDb | exact keeps_txnGet _ _
    | exact keeps_txnDelete _ _ | exact keeps_txnScan _ _ | exact keeps_deleteKeys _ _
    | refine .tryCatch ?_ fun _ => ?_
    | refine .bind ?_ fun _ => ?_
    | refine .ite ?_ ?_
    | split

theorem keeps_finalizeRoots (version : Nat) (finalizedRoots : List TypedHash) :
    ∀ (acc : FinalizeAcc) (rs : List TypedHash), Keeps F (finalizeRoots version finalizedRoots acc rs)
  | _, [] => .pure' _
  | acc, r :: rs =>
    (keeps_finalizeRoot version finalizedRoots acc r).bind fun acc' =>
      keeps_finalizeRoots version finalizedRoots acc' rs

theorem keeps_deleteLoneNodes (notLoneNodes : List Hash) :
    ∀ (b : WriteBatch) (hs : List Hash), Keeps F (deleteLoneNodes notLoneNodes b hs)
  | _, [] => .pure' _
  | b, h :: hs => by
    unfold deleteLoneNodes
    dsimp only
    repeat' with_reducible first
      | exact .pure' _ | exact keeps_batchDelete _ _
      | exact keeps_deleteLoneNodes notLoneNodes _ hs
      | refine .bind ?_ fun _ => ?_
      | refine .ite ?_ ?_

theorem keeps_finalizeBatch (sched : Sched) (roots : List Root) (version : Nat) :
    Keeps F (finalizeBatch sched roots version) := by
  unfold finalizeBatch
  dsimp only
  repeat' with_reducible first
    | exact .pure' _ | exact .throw' _ | exact keeps_loadRootsMetadata _ _ | exact keeps_finalizeRoots _ _ _ _
    | exact keeps_deleteLoneNodes _ _ _
    | refine .bind ?_ fun _ => ?_
    | refine .ite ?_ ?_

theorem keeps_visit {σ : Type} (root : Root) {f : Node → σ → DbM (Bool × σ)}
    (hf : ∀ n acc, Keeps F (f n acc)) :
    ∀ (fuel : Nat) (h : Hash) (acc : σ), Keeps F (visit root f fuel h acc)
  | 0, _, _ => .pure' _
  | fuel + 1, h, acc => by
    unfold visit
    dsimp only
    have hchildren : ∀ (l : List Hash) (r : σ × Option Error), Keeps F (l.foldlM
        (fun r c => if r.2.isSome then pure r else visit root f fuel c r.1) r) :=
      Keeps.foldlM fun r c => by
        split
        · exact .pure' _
        · exact keeps_visit root hf fuel c r.1
    repeat' with_reducible first
      | exact .pure' _ | exact .throw' _ | exact (keeps_getNode _ _).map _ | exact hf _ _
      | exact hchildren _ _
      | refine .tryCatch ?_ fun _ => ?_
      | refine .bind ?_ fun _ => ?_
      | refine .ite ?_ ?_
      | split

theorem keeps_pruneVisitor (version : Nat) (tx : Txn) (n : Node) (acc : WriteBatch × Option Error) :
    Keeps F (pruneVisitor version tx n acc) := by
  unfold pruneVisitor
  dsimp only
  repeat' with_reducible first
    | exact .pure' _ | exact .throw' _ | exact (keeps_txnGet _ _).map _
    | exact (keeps_batchDelete _ _).map _
    | refine .tryCatch ?_ fun _ => ?_
    | refine .bind ?_ fun _ => ?_
    | refine .ite ?_ ?_
    | split

theorem keeps_pruneLoneRoots (version : Nat) (tx : Txn) :
    ∀ (roots : List (TypedHash × List TypedHash)) (b : WriteBatch),
      Keeps F (pruneLoneRoots version tx roots b)
  | [], _ => .pure' _
  | (rootHash, derived) :: rest, b => by
    unfold pruneLoneRoots
    dsimp only
    repeat' with_reducible first
      | exact .pure' _ | exact .throw' _ | exact keeps_getDb | exact keeps_batchDelete _ _
      | exact keeps_pruneLoneRoots version tx rest _
      | exact keeps_visit _ (keeps_pruneVisitor version tx) _ _ _
      | refine .bind ?_ fun _ => ?_
      | refine .ite ?_ ?_
      | split

theorem keeps_pruneChecks (version : Nat) : Keeps F (pruneChecks version) := by
  unfold pruneChecks
  dsimp only
  repeat' with_reducible first
    | exact .pure' _ | exact .throw' _ | exact keeps_getDb
    | refine .bind ?_ fun _ => ?_
    | refine .ite ?_ ?_
    | split

theorem keeps_pruneBatch (version : Nat) : Keeps F (pruneBatch version) := by
  unfold pruneBatch
  dsimp only
  repeat' with_reducible first
    | exact .pure' _ | exact .throw' _ | exact keeps_getDb
    | exact keeps_loadRootsMetadata _ _ | exact keeps_pruneLoneRoots _ _ _ _
    | exact keeps_txnDelete _ _ | exact keeps_txnScan _ _ | exact keeps_deleteKeys _ _
    | refine .bind ?_ fun _ => ?_
    | refine .ite ?_ ?_

theorem keeps_getWriteLog (startRoot endRoot : Root) :
    Keeps F (getWriteLog startRoot endRoot) := by
  unfold getWriteLog
  dsimp only
  repeat' with_reducible first
    | exact .pure' _ | exact .throw' _ | exact keeps_getDb | exact keeps_checkRoot _ _
    | exact keeps_sanityCheckNamespace _
    | refine .bind ?_ fun _ => ?_
    | refine .ite ?_ ?_
    | split

/-! ## Operations that keep the versions -/

theorem keeps_registerRoot (id : Nat) (rootHash : TypedHash) :
    Keeps Frame.db (Batch.registerRoot id rootHash) := by
  unfold Batch.registerRoot
  dsimp only
  repeat' with_reducible first
    | exact .pure' _ | exact keeps_getBatch _ | exact keeps_setBatch_db _ _
    | exact keeps_batchSet _ _ _
    | refine .bind ?_ fun _ => ?_
    | refine .ite ?_ ?_
    | split

theorem keeps_commitLinks (id : Nat) (root : Root) (rootHash : TypedHash) (tx : Txn) :
    Keeps Frame.db (Batch.commitLinks id root rootHash tx) := by
  unfold Batch.commitLinks
  dsimp only
  repeat' with_reducible first
    | exact .pure' _ | exact keeps_getBatch _ | exact keeps_setBatch_db _ _
    | exact keeps_batchSet _ _ _ | exact keeps_txnSet _ _ _ | exact keeps_linkOldRoot _ _ _ _
    | refine .bind ?_ fun _ => ?_
    | refine .ite ?_ ?_
    | split

theorem Frame.versions_store (w : World) (st : Store) :
    Frame.versions.rel w { w with db := { w.db with store := st } } := ⟨rfl, rfl⟩

theorem keeps_versions_of_db {α : Type} {p : DbM α} (h : Keeps Frame.db p) :
    Keeps Frame.versions p :=
  h.mono fun _ _ => Frame.versions_of_db

theorem keeps_commitFlush (id : Nat) (tx : Txn) : Keeps Frame.versions (Batch.commitFlush id tx) := by
  unfold Batch.commitFlush
  dsimp only
  repeat' with_reducible first
    | exact .pure' _ | exact keeps_getBatch _
    | exact keeps_versions_of_db (keeps_setBatch_db _ _)
    | exact keeps_batchFlush Frame.versions_store _
    | exact keeps_txnCommitAt Frame.versions_store _ _
    | refine .bind ?_ fun _ => ?_
    | refine .ite ?_ ?_
    | split

theorem keeps_commit (id : Nat) (root : Root) : Keeps Frame.versions (Batch.commit id root) := by
  unfold Batch.commit
  dsimp only
  repeat' with_reducible first
    | exact .pure' _ | exact keeps_getBatch _ | exact keeps_commitChecks _ _
    | exact keeps_loadRootsMetadata _ _ | exact keeps_save _ _ | exact keeps_txnSet _ _ _
    | exact keeps_versions_of_db (keeps_registerRoot _ _)
    | exact keeps_versions_of_db (keeps_reset _)
    | exact keeps_versions_of_db (keeps_commitLinks _ _ _ _)
    | exact keeps_commitFlush _ _
    | refine .bind ?_ fun _ => ?_
    | refine .ite ?_ ?_

theorem keeps_modifyDb_versions {f : Db → Db}
    (he : ∀ d, (f d).meta.earliestVersion = d.meta.earliestVersion)
    (hl : ∀ d, (f d).meta.lastFinalizedVersion = d.meta.lastFinalizedVersion) :
    Keeps Frame.versions (modifyDb f) :=
  keeps_modifyDb fun w => ⟨he w.db, hl w.db⟩

theorem keeps_setMultipartVersion (tx : Txn) (version : Nat) :
    Keeps Frame.versions (setMultipartVersion tx version) := by
  unfold setMultipartVersion
  refine .bind (keeps_modifyDb_versions ?_ ?_) fun _ => keeps_metaSave _ <;> exact fun _ => rfl

theorem keeps_cleanMultipartLocked (removeNodes : Bool) :
    Keeps Frame.versions (cleanMultipartLocked removeNodes) := by
  unfold cleanMultipartLocked
  dsimp only
  repeat' with_reducible first
    | exact .pure' _ | exact keeps_getDb | exact keeps_txnScan _ _
    | exact keeps_cleanLogEntries _ _ _ | exact keeps_setMultipartVersion _ _
    | exact keeps_batchFlush Frame.versions_store _
    | exact keeps_txnCommitAt Frame.versions_store _ _
    | exact keeps_modifyDb_versions (fun _ => rfl) fun _ => rfl
    | refine .bind ?_ fun _ => ?_
    | refine .ite ?_ ?_

theorem keeps_startMultipartInsert (version : Nat) :
    Keeps Frame.versions (startMultipartInsert version) := by
  unfold startMultipartInsert
  dsimp only
  repeat' with_reducible first
    | exact .pure' _ | exact .throw' _ | exact keeps_getDb | exact keeps_setMultipartVersion _ _
    | exact keeps_txnCommitAt Frame.versions_store _ _
    | exact keeps_modifyDb_versions (fun _ => rfl) fun _ => rfl
    | refine .bind ?_ fun _ => ?_
    | refine .ite ?_ ?_

end Mkvs.Badger
