import Mkvs.Proofs.CommitRoots

/-!
# What the traversal of `Prune` deletes

`Prune(V)` (`badgerNodeDB.Prune`) visits every lone root of `V` with `api.Visit` and deletes,
in a batch at `V`'s timestamp, each node it reaches that was written at `V`, then the root's
`rootNode` marker. This module states what that batch holds.

* Every write the traversal and the deletion of the write logs make is a deletion at the
  batch's timestamp (`WriteBatch.DeletesOver`), and the batch deletes the marker of every lone
  root (`spec_pruneLoneRoots_deletes`), whatever the backing store does.
* The recursion of `visit` is bounded by the hash of the node it reads, and a node's hash is
  above its children's (`Node.lt_getHash_of_mem_children`). In a typed store a visit from `h`
  with any fuel above `h` therefore runs as with any other (`visit_fuel_congr`): the fuel
  `h + 1` that `Prune` gives never runs out.
* With a working backing store, a traversal that reports no error has deleted every node
  reachable from the root (`Store.Reaches`) that was written at `V` (`visit_prune_working`,
  `pruneBatch_working`).
-/

namespace Mkvs.Badger

variable {ns : Nat}

/-! ## A batch of deletions -/

/-- `b'` is `b` with deletions at `b`'s timestamp written on top. -/
def WriteBatch.DeletesOver (b b' : WriteBatch) : Prop :=
  b'.commitTs = b.commitTs ∧ b'.finished = b.finished ∧
    ∃ ws, b'.writes = ws ++ b.writes ∧ ∀ e ∈ ws, e.ts = b.commitTs ∧ e.value = none

namespace WriteBatch.DeletesOver

theorem refl (b : WriteBatch) : b.DeletesOver b :=
  ⟨rfl, rfl, [], rfl, List.forall_mem_nil _⟩

theorem trans {b₁ b₂ b₃ : WriteBatch} (h₁ : b₁.DeletesOver b₂) (h₂ : b₂.DeletesOver b₃) :
    b₁.DeletesOver b₃ := by
  obtain ⟨ht₁, hf₁, ws₁, hw₁, hd₁⟩ := h₁
  obtain ⟨ht₂, hf₂, ws₂, hw₂, hd₂⟩ := h₂
  refine ⟨ht₂.trans ht₁, hf₂.trans hf₁, ws₂ ++ ws₁, by rw [hw₂, hw₁, List.append_assoc],
    fun e he => ?_⟩
  rcases List.mem_append.1 he with he | he
  · exact ⟨(hd₂ e he).1.trans ht₁, (hd₂ e he).2⟩
  · exact hd₁ e he

theorem delete (b : WriteBatch) (k : Key) :
    b.DeletesOver { b with writes := ⟨k, b.commitTs, none⟩ :: b.writes } :=
  ⟨rfl, rfl, [_], rfl, fun _ he => by rw [List.mem_singleton.1 he]; exact ⟨rfl, rfl⟩⟩

theorem mem {b b' : WriteBatch} (h : b.DeletesOver b') {e : Entry} (he : e ∈ b.writes) :
    e ∈ b'.writes := by
  obtain ⟨-, -, ws, hw, -⟩ := h
  exact hw ▸ List.mem_append_right _ he

end WriteBatch.DeletesOver

/-- Over a batch of deletions on a fresh batch at `t`, a key the batch deletes reads as
deleted at `t`, whatever the store held. -/
theorem Store.latest_deleted {es : List Entry} {k : Key} {t : Nat} (hk : ⟨k, t, none⟩ ∈ es)
    (hdel : ∀ e ∈ es, e.ts = t ∧ e.value = none) (rest : List Entry) :
    Store.latest ⟨es ++ rest⟩ k t = some (t, none) := by
  induction es with
  | nil => cases hk
  | cons e es ih =>
    rw [List.cons_append, Store.latest_cons]
    obtain ⟨het, hev⟩ := hdel e (List.mem_cons_self _ _)
    have hle : (Store.latest ⟨es ++ rest⟩ k t).all (·.1 ≤ t) = true := by
      rcases h : Store.latest ⟨es ++ rest⟩ k t with _ | ⟨ts, u⟩
      · rfl
      · simpa using (Store.latest_le h).1
    by_cases hek : e.key = k
    · simp only [pickLatest, hek, het, le_refl, hle, and_self, if_true, hev]
    · rcases List.mem_cons.1 hk with rfl | hk
      · exact absurd rfl hek
      · rw [ih hk fun e he => hdel e (List.mem_cons_of_mem _ he),
          pickLatest_of_not_visible (.inl hek)]

theorem Store.get_deleted {b : WriteBatch} (hb : (WriteBatch.new b.commitTs).DeletesOver b)
    {k : Key} (hk : ⟨k, b.commitTs, none⟩ ∈ b.writes) (st : Store) :
    (st.flush b).get k b.commitTs = none := by
  obtain ⟨-, -, ws, hw, hd⟩ := hb
  simp only [WriteBatch.new, List.append_nil] at hw
  subst hw
  simp only [Store.get, Store.flush, Store.latest_deleted hk hd]

/-! ## The deletions of `Prune`, whatever the store does -/

section Deletions

variable (d : Db)

theorem spec_batchDelete_eq (b : WriteBatch) (k : Key) :
    Spec (·.db = d) (batchDelete b k)
      (· = { b with writes := ⟨k, b.commitTs, none⟩ :: b.writes }) := by
  unfold batchDelete batchWriteAt
  exact Spec.ite_throw ((spec_onDb d keeps_tick).bind' fun _ => Spec.pure' rfl)

theorem spec_pruneVisitor_deletes (version : Nat) (tx : Txn) (n : Node)
    (acc : WriteBatch × Option Error) :
    Spec (·.db = d) (pruneVisitor version tx n acc) fun r => acc.1.DeletesOver r.2.1 := by
  unfold pruneVisitor
  dsimp only
  refine (Spec.attempt (spec_onDb d (keeps_txnGet _ _))).bind fun _ _ => ?_
  split
  · exact Spec.pure' (.refl _)
  · exact Spec.pure' (.refl _)
  · refine Spec.ite ?_ (Spec.pure' (.refl _))
    refine (Spec.attempt (spec_batchDelete_eq d _ _)).bind fun _ hr => ?_
    split
    · exact Spec.pure' (.refl _)
    · exact Spec.pure' (hr _ rfl ▸ .delete _ _)

theorem spec_visit_deletes (version : Nat) (tx : Txn) (root : Root) (fuel : Nat) (h : Hash)
    (acc : WriteBatch × Option Error) :
    Spec (·.db = d) (visit root (pruneVisitor version tx) fuel h acc)
      fun r => acc.1.DeletesOver r.1.1 :=
  Spec.visit (P := fun a : WriteBatch × Option Error => acc.1.DeletesOver a.1) root
    (fun _ => spec_onDb d (keeps_getNode _ _))
    (fun n a ha => (spec_pruneVisitor_deletes d version tx n a).mono fun _ h => ha.trans h)
    fuel h acc (.refl _)

/-- The loop over the roots of the version only deletes, and it deletes the marker of each
lone root. -/
theorem spec_pruneLoneRoots_deletes (version : Nat) (tx : Txn) :
    ∀ (roots : List (TypedHash × List TypedHash)) (b : WriteBatch),
      Spec (·.db = d) (pruneLoneRoots version tx roots b) fun b' => b.DeletesOver b' ∧
        ∀ rh, (rh, []) ∈ roots → ⟨.rootNode rh, b.commitTs, none⟩ ∈ b'.writes
  | [], b => Spec.pure' ⟨.refl b, fun _ h => absurd h (List.not_mem_nil _)⟩
  | (rootHash, derived) :: rest, b => by
    unfold pruneLoneRoots
    dsimp only
    split
    · rename_i hd
      refine (spec_pruneLoneRoots_deletes version tx rest b).mono fun b' hb' => ⟨hb'.1, ?_⟩
      rintro rh (⟨⟩ | ⟨_, hrh⟩)
      · cases hd
      · exact hb'.2 rh hrh
    refine (spec_onDb d keeps_getDb).bind fun _ _ => ?_
    refine (spec_visit_deletes d version tx _ _ _ _).bind fun r hr => ?_
    split
    · exact Spec.bind (Q := fun _ => False) (Spec.throw' _) fun _ h => h.elim
    refine Spec.bind' (Spec.pure' trivial) fun _ => ?_
    split
    · exact Spec.bind (Q := fun _ => False) (Spec.throw' _) fun _ h => h.elim
    refine Spec.bind' (Spec.pure' trivial) fun _ => ?_
    refine (spec_batchDelete_eq d _ _).bind fun b₁ hb₁ => ?_
    refine (spec_pruneLoneRoots_deletes version tx rest b₁).mono fun b' hb' => ?_
    subst hb₁
    have hb₁ := hr.trans (.delete r.1.1 (.rootNode rootHash))
    have hts : r.1.1.commitTs = b.commitTs := hr.1
    refine ⟨hb₁.trans hb'.1, fun rh hrh => ?_⟩
    rcases List.mem_cons.1 hrh with h | hrh
    · obtain ⟨rfl, -⟩ := Prod.mk.inj h
      exact hb'.1.mem (hts ▸ List.mem_cons_self _ _)
    · exact hts ▸ hb'.2 rh hrh

theorem spec_deleteKeys_deletes :
    ∀ (b : WriteBatch) (ks : List Key),
      Spec (·.db = d) (deleteKeys b ks) fun b' => b.DeletesOver b'
  | b, [] => Spec.pure' (.refl b)
  | b, k :: ks => (spec_batchDelete_eq d b k).bind fun _ h =>
    (spec_deleteKeys_deletes _ ks).mono fun _ h' => by
      subst h
      exact (WriteBatch.DeletesOver.delete b k).trans h'

theorem spec_txnDelete_eq (tx : Txn) (k : Key) :
    Spec (·.db = d) (txnDelete tx k) (· = { tx with pending := (k, none) :: tx.pending }) :=
  (spec_onDb d keeps_tick).bind' fun _ => Spec.pure' rfl

/-- `Prune` after its loop over the roots: the transaction deletes the roots metadata of the
version and nothing else, and the batch only gains deletions. -/
theorem spec_pruneBatch_rest (version : Nat) (b : WriteBatch) :
    Spec (·.db = d) (do
      let tx ← txnDelete (Txn.new (versionToTs version)) (.rootsMetadata version)
      let batch ← if (← getDb).discardWriteLogs then pure b
        else
          let keys ← txnScan (Txn.new (versionToTs version)) (writeLogVersionPrefix version)
          deleteKeys b keys
      return (tx, batch)) fun r =>
      r.1 = { Txn.new (versionToTs version) with pending := [(.rootsMetadata version, none)] } ∧
        b.DeletesOver r.2 := by
  refine (spec_txnDelete_eq d _ _).bind fun tx htx => ?_
  refine (spec_onDb d keeps_getDb).bind' fun _ => ?_
  dsimp only
  refine Spec.ite (Spec.bind (Q := b.DeletesOver) (Spec.pure' (.refl b)) fun _ hb =>
    Spec.pure' ⟨htx, hb⟩) ?_
  exact (spec_onDb d (keeps_txnScan _ _)).bind' fun ks =>
    (spec_deleteKeys_deletes d b ks).bind fun _ hb => Spec.pure' ⟨htx, hb⟩

/-- The record `loadRootsMetadata` returns from a fresh transaction is the one stored. -/
theorem RootsMetadata.roots_eq_of_get {rm : RootsMetadata} {version t : Nat}
    {roots : List (TypedHash × List TypedHash)}
    (hrm : (Txn.new t).view d.store (.rootsMetadata version) = some (.rootsMetadata rm.roots) ∨
      ((Txn.new t).view d.store (.rootsMetadata version) = none ∧ rm.roots = []))
    (hroots : (d.store.get (.rootsMetadata version) t).map Prod.snd =
      some (.rootsMetadata roots)) : rm.roots = roots := by
  rcases hrm with hv | ⟨hv, -⟩ <;> rw [Txn.view_new, hroots] at hv
  · cases hv
    rfl
  · cases hv

/-- What `Prune` writes, whatever the store does: its transaction deletes the roots metadata
of its version and nothing else; its batch holds deletions at the version's timestamp only,
among them the marker of every lone root of the record it loaded. -/
theorem spec_pruneBatch (version : Nat) :
    Spec (·.db = d) (pruneBatch version) fun r =>
      r.1 = { Txn.new (versionToTs version) with pending := [(.rootsMetadata version, none)] } ∧
      (WriteBatch.new (versionToTs version)).DeletesOver r.2 ∧
      ∀ roots, (d.store.get (.rootsMetadata version) (versionToTs version)).map Prod.snd =
          some (.rootsMetadata roots) →
        ∀ rh, (rh, []) ∈ roots → ⟨.rootNode rh, versionToTs version, none⟩ ∈ r.2.writes := by
  unfold pruneBatch
  refine (spec_loadRootsMetadata_view d _ version).bind fun rm hrm => ?_
  refine (spec_pruneLoneRoots_deletes d version _ rm.roots _).bind fun b hb => ?_
  refine (spec_pruneBatch_rest d version b).mono fun r hr => ⟨hr.1, hb.1.trans hr.2, ?_⟩
  intro roots hroots rh hrh
  exact hr.2.mem (hb.2 rh (RootsMetadata.roots_eq_of_get d hrm.2 hroots ▸ hrh))

end Deletions

/-! ## The fuel of `visit` -/

/-- `h'` is `h` or below it: each hash on the way holds a node in the store at `t`, and the
next hash is one of its children. -/
inductive Store.Reaches (st : Store) (t : Nat) : Hash → Hash → Prop
  | refl (h : Hash) : Store.Reaches st t h h
  | child {h h' c : Hash} {ts : Nat} {n : Node} : st.get (.node h) t = some (ts, .node n) →
      c ∈ n.children → Store.Reaches st t c h' → Store.Reaches st t h h'

/-- A typed store holds each node under its own hash. -/
theorem Store.getHash_of_get {st : Store} (hs : ∀ e ∈ st.entries, e.typed ns = true) {h : Hash}
    {t ts : Nat} {n : Node} (hg : st.get (.node h) t = some (ts, .node n)) : n.getHash = h := by
  simpa [Key.admits] using Store.admits_of_get hs hg

/-- Nothing the store holds is reached from the empty hash. -/
theorem Store.Reaches.ne_zero {st : Store} (hs : ∀ e ∈ st.entries, e.typed ns = true) {t : Nat}
    {h h' : Hash} (hr : st.Reaches t h h') {ts : Nat} {n : Node}
    (hg : st.get (.node h') t = some (ts, .node n)) : h ≠ 0 := by
  cases hr with
  | refl => exact Store.getHash_of_get hs hg ▸ Node.getHash_ne_zero n
  | child hg' _ _ => exact Store.getHash_of_get hs hg' ▸ Node.getHash_ne_zero _

/-- `Except.ok <$> x` with its errors caught never fails, and returns what `x` returns. -/
theorem exec_attempt (x : DbM α) (w : World) :
    (MonadExcept.tryCatch (Except.ok <$> x) fun e => pure (Except.error e) :
      DbM (Except Error α)).exec w = (.ok (x.exec w).1, (x.exec w).2) := by
  rw [exec_tryCatch, exec_map]
  rcases x.exec w with ⟨_ | _, _⟩ <;> rfl

theorem exec_bind_congr {x y : DbM α} {f g : α → DbM β} {w : World} (hxy : x.exec w = y.exec w)
    (hfg : ∀ a w', x.exec w = (.ok a, w') → (f a).exec w' = (g a).exec w') :
    (x >>= f).exec w = (y >>= g).exec w := by
  rw [exec_bind, exec_bind, ← hxy]
  rcases hx : x.exec w with ⟨e | a, w'⟩
  · rfl
  · exact hfg a w' hx

theorem getHash_of_getNode {w w' : World} (hw : w.Typed ns) {root : Root} {h : Hash} {n : Node}
    (hn : (getNode root h).exec w = (.ok n, w')) : n.getHash = h := by
  rcases getNode_typed hw root h with ⟨n', hn', hh⟩ | ⟨e, he, -⟩
  · rw [hn] at hn'
    cases hn'
    exact hh
  · rw [hn] at he
    cases he

/-- In a typed store, a visit from `h` whose visitor keeps the database and the handles runs
the same with any fuel above `h`: a node read under `h` has the hash `h`, and its children
are below it, so the fuel never runs out. -/
theorem visit_fuel_congr {σ : Type} (root : Root) {f : Node → σ → DbM (Bool × σ)}
    (hf : ∀ n acc, Keeps Frame.world (f n acc)) :
    ∀ {fuel fuel' : Nat} {h : Hash} (acc : σ) {w : World}, w.Typed ns → h < fuel → h < fuel' →
      (visit root f fuel h acc).exec w = (visit root f fuel' h acc).exec w
  | 0, _, _, _, _, _, hlt, _ => absurd hlt (Nat.not_lt_zero _)
  | _ + 1, 0, _, _, _, _, _, hlt' => absurd hlt' (Nat.not_lt_zero _)
  | fuel + 1, fuel' + 1, h, acc, w, hw, hlt, hlt' => by
    -- the loop over the children, below the fuel on both sides
    have hfold : ∀ (l : List Hash), (∀ c ∈ l, c < fuel ∧ c < fuel') →
        ∀ (r : σ × Option Error) {w : World}, w.Typed ns →
          (l.foldlM (fun (r : σ × Option Error) c =>
            if r.2.isSome then pure r else visit root f fuel c r.1) r).exec w =
          (l.foldlM (fun (r : σ × Option Error) c =>
            if r.2.isSome then pure r else visit root f fuel' c r.1) r).exec w := by
      intro l
      induction l with
      | nil => intros; rfl
      | cons c l ih =>
        intro hl r w hw
        have hc := hl c (List.mem_cons_self _ _)
        rw [List.foldlM_cons, List.foldlM_cons]
        refine exec_bind_congr ?_ fun r' w' hx =>
          ih (fun c hc => hl c (List.mem_cons_of_mem _ hc)) r' (hw.of_world ?_)
        · split
          · rfl
          · exact visit_fuel_congr root hf r.1 hw hc.1 hc.2
        · exact Keeps.rel_of_exec (.ite (.pure' _) (keeps_visit root hf fuel c r.1)) hx
    simp only [visit, pure_bind]
    split
    · rfl
    refine exec_bind_congr rfl fun r w₁ hr => ?_
    rw [exec_attempt, Prod.mk.injEq] at hr
    split
    · rfl
    rename_i n
    have hn : (getNode root h).exec w = (.ok n, w₁) := Prod.ext (Except.ok.inj hr.1) hr.2
    have hw₁ := hw.of_world (Keeps.rel_of_exec (keeps_getNode root h) hn)
    refine exec_bind_congr rfl fun p w₂ hp => ?_
    have hw₂ := hw₁.of_world (Keeps.rel_of_exec (hf n acc) hp)
    split
    · rfl
    refine hfold _ (fun c hc => ?_) _ hw₂
    have := Node.lt_getHash_of_mem_children hc
    rw [getHash_of_getNode hw hn] at this
    exact ⟨this.trans_le (Nat.lt_succ_iff.1 hlt), this.trans_le (Nat.lt_succ_iff.1 hlt')⟩

/-! ## With a working backing store

With no failing step, the traversal of `Prune` reads the store and writes into its batch
only, so its run is computed outright: the visitor finds every node `GetNode` returned, and
descends into it. -/

/-- The batch `b` deletes every node reachable from `h` in `st` at `V`'s timestamp that was
written at `V`. -/
def WriteBatch.DeletesTree (st : Store) (version : Nat) (h : Hash) (b : WriteBatch) : Prop :=
  ∀ h', st.Reaches (versionToTs version) h h' → ∀ ts n,
    st.get (.node h') (versionToTs version) = some (ts, .node n) → tsToVersion ts = version →
      ⟨.node h', b.commitTs, none⟩ ∈ b.writes

theorem WriteBatch.DeletesTree.mono {st : Store} {version : Nat} {h : Hash} {b b' : WriteBatch}
    (hb : b.DeletesOver b') (ht : b.DeletesTree st version h) : b'.DeletesTree st version h :=
  fun h' hr ts n hg hv => hb.1 ▸ hb.mem (ht h' hr ts n hg hv)

section Working

variable (db : Db) (bs : Nat → Batch)

theorem getNode_working (root : Root) (h : Hash) :
    ∃ r, (getNode root h).exec ⟨db, bs, none⟩ = (r, ⟨db, bs, none⟩) ∧
      ∀ n, r = .ok n →
        ∃ ts, db.store.get (.node h) (versionToTs root.version) = some (ts, .node n) := by
  unfold getNode sanityCheckNamespace checkRoot
  simp only [exec_bind, exec_getDb, exec_ite, exec_throw, exec_pure]
  by_cases hns : root.ns ≠ db.ns
  · simp only [if_pos hns]
    exact ⟨_, rfl, nofun⟩
  by_cases hv : root.version < db.meta.earliestVersion
  · simp only [if_neg hns, if_pos hv]
    exact ⟨_, rfl, nofun⟩
  simp only [if_neg hns, if_neg hv, txnGet_new_exec (w := ⟨db, bs, none⟩) rfl]
  rcases db.store.get (.rootNode (TypedHash.fromRoot root)) (versionToTs root.version) with _ | x
  · simp only [Option.isNone_none, if_true]
    exact ⟨_, rfl, nofun⟩
  simp only [Option.isNone_some, Bool.false_eq_true, if_false,
    txnGet_new_exec (w := ⟨db, bs, none⟩) rfl]
  split
  · exact ⟨_, rfl, nofun⟩
  · rename_i ts n hg
    exact ⟨_, rfl, fun n' h' => ⟨ts, by cases h'; exact hg⟩⟩
  · exact ⟨_, rfl, nofun⟩

/-- With a working store, the visitor of `Prune` finds a node the store holds at `V` and
descends into it, deleting it when it was written at `V`. -/
theorem pruneVisitor_working (version : Nat) {b : WriteBatch} (hb : b.finished = false)
    (n : Node) (ie : Option Error) {ts : Nat} {v : Value}
    (hg : db.store.get (.node n.getHash) (versionToTs version) = some (ts, v)) :
    (pruneVisitor version (Txn.new (versionToTs version)) n (b, ie)).exec ⟨db, bs, none⟩ =
      (.ok (true, (if tsToVersion ts = version
        then { b with writes := ⟨.node n.getHash, b.commitTs, none⟩ :: b.writes } else b, none)),
        ⟨db, bs, none⟩) := by
  unfold pruneVisitor
  simp only [exec_bind, exec_attempt, txnGet_new_exec (w := ⟨db, bs, none⟩) rfl, hg]
  split_ifs
  · simp only [batchDelete, exec_bind, exec_attempt, batchWriteAt_working db bs hb]
    rfl
  · rfl

/-- With a working store, the visit by `Prune`'s visitor of a root of `V` from `h`, with fuel
above `h`, returns; it only adds deletions to its batch, and unless it reports an error it has
deleted every node reachable from `h` that was written at `V`. -/
theorem visit_prune_working (hst : ∀ e ∈ db.store.entries, e.typed ns = true) {version : Nat}
    {root : Root} (hv : root.version = version) :
    ∀ {fuel : Nat} {h : Hash}, h < fuel → ∀ {b : WriteBatch} (ie : Option Error),
      b.finished = false → ∃ r,
        (visit root (pruneVisitor version (Txn.new (versionToTs version))) fuel h (b, ie)).exec
          ⟨db, bs, none⟩ = (.ok r, ⟨db, bs, none⟩) ∧
        b.DeletesOver r.1.1 ∧ (r.2 = none → r.1.1.DeletesTree db.store version h)
  | 0, _, hlt, _, _, _ => absurd hlt (Nat.not_lt_zero _)
  | fuel + 1, h, hlt, b, ie, hb => by
    -- the loop over the children: each child is visited unless an error came before
    have hfold : ∀ (l : List Hash), (∀ c ∈ l, c < fuel) →
        ∀ (r : (WriteBatch × Option Error) × Option Error), r.1.1.finished = false → ∃ r',
          (l.foldlM (fun (r : (WriteBatch × Option Error) × Option Error) c =>
            if r.2.isSome then pure r
            else visit root (pruneVisitor version (Txn.new (versionToTs version))) fuel c r.1)
            r).exec ⟨db, bs, none⟩ = (.ok r', ⟨db, bs, none⟩) ∧
          r.1.1.DeletesOver r'.1.1 ∧
          (r'.2 = none → r.2 = none ∧ ∀ c ∈ l, r'.1.1.DeletesTree db.store version c) := by
      intro l
      induction l with
      | nil => exact fun _ r _ => ⟨r, rfl, .refl _, fun h => ⟨h, List.forall_mem_nil _⟩⟩
      | cons c l ih =>
        intro hl r hr
        have hl' : ∀ c ∈ l, c < fuel := fun c hc => hl c (List.mem_cons_of_mem _ hc)
        rw [List.foldlM_cons, exec_bind]
        by_cases he : r.2.isSome
        · obtain ⟨r', hx, hd, ht⟩ := ih hl' r hr
          refine ⟨r', by simpa only [he, if_true, exec_pure] using hx, hd, fun h => ?_⟩
          exact absurd (ht h).1 (by simpa only [← Option.isSome_iff_ne_none] using he)
        obtain ⟨r₁, hx₁, hd₁, ht₁⟩ :=
          visit_prune_working hst hv (hl c (List.mem_cons_self _ _)) r.1.2 hr
        obtain ⟨r', hx, hd, ht⟩ := ih hl' r₁ (hd₁.2.1.trans hr)
        refine ⟨r', by simpa only [he, Bool.false_eq_true, if_false, hx₁] using hx, hd₁.trans hd,
          fun h => ⟨Option.not_isSome_iff_eq_none.1 he, ?_⟩⟩
        rintro c' (_ | ⟨_, hc'⟩)
        · exact (ht₁ (ht h).1).mono hd
        · exact (ht h).2 c' hc'
    simp only [visit, pure_bind]
    split
    · -- the empty tree: the store holds no node under the empty hash
      rename_i hemp
      refine ⟨((b, ie), none), rfl, .refl _, fun _ h' hr ts n hg _ => absurd hemp ?_⟩
      simpa [Hash.isEmpty] using hr.ne_zero hst hg
    obtain ⟨r₀, hr₀, hok⟩ := getNode_working db bs root h
    rcases r₀ with e | n
    · exact ⟨((b, ie), some e), by simp only [exec_bind, exec_attempt, hr₀]; rfl, .refl _,
        nofun⟩
    obtain ⟨ts, hg⟩ := hok n rfl
    rw [hv] at hg
    have hh : n.getHash = h := Store.getHash_of_get hst hg
    simp only [exec_bind, exec_attempt, hr₀,
      pruneVisitor_working db bs version hb n ie (hh.symm ▸ hg), Bool.not_true,
      Bool.false_eq_true, if_false]
    -- the visitor deletes `h` when it was written at `V`, and descends
    generalize hb₁def : (if tsToVersion ts = version
      then { b with writes := ⟨.node n.getHash, b.commitTs, none⟩ :: b.writes } else b) = b₁
    have hb₁ : b.DeletesOver b₁ := by
      subst hb₁def
      split_ifs
      exacts [.delete _ _, .refl _]
    obtain ⟨r', hx, hd, ht⟩ := hfold n.children
      (fun c hc => Nat.lt_of_lt_of_le (hh ▸ Node.lt_getHash_of_mem_children hc)
        (Nat.lt_succ_iff.1 hlt)) ((b₁, none), none) (hb₁.2.1.trans hb)
    refine ⟨r', hx, hb₁.trans hd, fun hnone h' hr ts' n' hg' hv' => ?_⟩
    cases hr with
    | refl =>
      obtain rfl : ts' = ts := by rw [hg] at hg'; cases hg'; rfl
      rw [hd.1, hb₁.1]
      subst hb₁def
      exact hd.mem (by simp only [if_pos hv', hh, List.mem_cons_self])
    | child hgc hc hrc =>
      rw [hg] at hgc
      cases hgc
      exact (ht hnone).2 _ hc _ hrc ts' n' hg' hv'

/-- With a working store, a successful loop of `Prune` over the roots of `V` deletes every
node written at `V` below each lone root. -/
theorem pruneLoneRoots_working (hst : ∀ e ∈ db.store.entries, e.typed ns = true)
    (version : Nat) :
    ∀ (roots : List (TypedHash × List TypedHash)) {b b' : WriteBatch} {w' : World},
      b.finished = false →
      (pruneLoneRoots version (Txn.new (versionToTs version)) roots b).exec ⟨db, bs, none⟩ =
        (.ok b', w') →
      w' = ⟨db, bs, none⟩ ∧ ∀ rh, (rh, []) ∈ roots → b'.DeletesTree db.store version rh.hash
  | [], _, _, _, _, h => by
    simp only [pruneLoneRoots, exec_pure, Prod.mk.injEq] at h
    exact ⟨h.2.symm, fun _ h => absurd h (List.not_mem_nil _)⟩
  | (rootHash, derived) :: rest, b, b', w', hb, h => by
    unfold pruneLoneRoots at h
    split at h
    · rename_i hd
      refine (pruneLoneRoots_working hst version rest hb h).imp_right fun ht rh hrh => ?_
      rcases List.mem_cons.1 hrh with hrh | hrh
      · obtain ⟨-, rfl⟩ := Prod.mk.inj hrh
        cases hd
      · exact ht rh hrh
    obtain ⟨⟨⟨b₁, ie⟩, err⟩, hx, hd₁, ht₁⟩ := visit_prune_working db bs hst
      (show (⟨db.ns, version, rootHash.type, rootHash.hash⟩ : Root).version = version from rfl)
      (show rootHash.hash < rootHash.hash + 1 from Nat.lt_succ_self _) none hb
    simp only [exec_bind, exec_getDb, hx] at h
    cases ie
    swap
    · simp only [exec_bind, exec_throw] at h
      cases h
    cases err
    swap
    · simp only [exec_bind, exec_throw, exec_pure] at h
      cases h
    simp only [exec_bind, exec_pure, batchDelete,
      batchWriteAt_working db bs (hd₁.2.1.trans hb)] at h
    obtain ⟨hw, ht⟩ := pruneLoneRoots_working hst version rest
      (b := { b₁ with writes := ⟨.rootNode rootHash, b₁.commitTs, none⟩ :: b₁.writes })
      (hd₁.2.1.trans hb) h
    have hdel := (spec_pruneLoneRoots_deletes db version _ rest _ _ rfl).2 b' (by rw [h])
    refine ⟨hw, fun rh hrh => ?_⟩
    rcases List.mem_cons.1 hrh with hrh | hrh
    · obtain ⟨rfl, -⟩ := Prod.mk.inj hrh
      exact (ht₁ rfl).mono ((WriteBatch.DeletesOver.delete b₁ _).trans hdel.1)
    · exact ht rh hrh

/-- With a working store, the batch of a successful `Prune(V)` deletes every node written at
`V` below each lone root of the record it loaded. -/
theorem pruneBatch_working (hst : ∀ e ∈ db.store.entries, e.typed ns = true) (version : Nat)
    {r : Txn × WriteBatch} {w' : World}
    (h : (pruneBatch version).exec ⟨db, bs, none⟩ = (.ok r, w')) :
    ∀ roots, (db.store.get (.rootsMetadata version) (versionToTs version)).map Prod.snd =
        some (.rootsMetadata roots) →
      ∀ rh, (rh, []) ∈ roots → r.2.DeletesTree db.store version rh.hash := by
  unfold pruneBatch at h
  obtain ⟨rm, w₁, hl, h⟩ := exec_bind_ok h
  obtain ⟨rm', hl'⟩ := loadRootsMetadata_working db bs hst (versionToTs version) version
  have hrm := (spec_loadRootsMetadata_view db (Txn.new (versionToTs version)) version
    ⟨db, bs, none⟩ rfl).2 rm (by rw [hl])
  rw [hl'] at hl
  obtain ⟨-, rfl⟩ := Prod.mk.inj hl
  obtain ⟨b, w₂, hp, h⟩ := exec_bind_ok h
  obtain ⟨rfl, ht⟩ := pruneLoneRoots_working db bs hst version rm.roots rfl hp
  have hrest := (spec_pruneBatch_rest db version b ⟨db, bs, none⟩ rfl).2 r (by rw [h])
  intro roots hroots rh hrh
  exact (ht rh (RootsMetadata.roots_eq_of_get db hrm.2 hroots ▸ hrh)).mono hrest.2

end Working

end Mkvs.Badger
