import Mkvs.Proofs.Lockstep

/-!
# Retrying a failed commit

A `Commit` that fails may have flushed its restore log, or its restore log and its node
batch, but never its metadata transaction (`commit_error_store`). A fresh batch with the
same `NewBatch` and the same calls then runs in lockstep with the first batch run with a
working store (`Mkvs/Proofs/Lockstep.lean`), and its `Commit` ends, when it succeeds, in a
store that every read sees as the store the first `Commit` would have left
(`commit_retry`): the versions flushed twice lie under their second copies, and the
restore-log entries the retry does not write are among those the failed call flushed.

## Main statements

* `retry_latest`: the reads of the two final stores agree, from the `newer` algebra of
  `Store.latest` over appended blocks.
* `run_batchCalls_retry`: the two batches, call by call, in `RetryRel`.
* `commit_retry_exec`: when the retry's `Commit` succeeds, so does the reference one, and
  the two stores read alike.
* `commit_retry`: a retry right after a failed `Commit`.
-/

namespace Mkvs.Badger

/-! ## Reads over a repeated flush -/

/-- The version a read sees in two blocks of versions, the newer block's `a` before the
older block's `b`: the newer one's unless the older one's is written later. -/
def newer : Option (Nat × Option Value) → Option (Nat × Option Value) → Option (Nat × Option Value)
  | none, b => b
  | some p, b => if b.all (·.1 ≤ p.1) then some p else b

@[simp] theorem newer_none (b : Option (Nat × Option Value)) : newer none b = b := rfl

theorem pickLatest_newer (k : Key) (t : Nat) (e : Entry) (a b : Option (Nat × Option Value)) :
    pickLatest k t e (newer a b) = newer (pickLatest k t e a) b := by
  unfold pickLatest
  by_cases hv : e.key = k ∧ e.ts ≤ t
  · obtain ⟨hk, ht⟩ := hv
    rcases a with _ | ⟨p, u⟩
    · simp [newer, hk, ht]
    rcases b with _ | ⟨q, v⟩
    · by_cases h1 : p ≤ e.ts <;> simp [newer, hk, ht, h1]
    by_cases h1 : q ≤ p <;> by_cases h2 : p ≤ e.ts <;> by_cases h3 : q ≤ e.ts <;>
      simp [newer, hk, ht, h1, h2, h3] <;> omega
  · have hv' : ∀ P : Prop, ¬(e.key = k ∧ e.ts ≤ t ∧ P) := fun _ h => hv ⟨h.1, h.2.1⟩
    simp only [hv', if_false]

@[simp] theorem Store.latest_nil (k : Key) (t : Nat) : Store.latest ⟨[]⟩ k t = none := rfl

theorem Store.latest_append_newer (L S : List Entry) (k : Key) (t : Nat) :
    Store.latest ⟨L ++ S⟩ k t = newer (Store.latest ⟨L⟩ k t) (Store.latest ⟨S⟩ k t) := by
  induction L with
  | nil => rfl
  | cons e L ih => rw [List.cons_append, Store.latest_cons, ih, pickLatest_newer, Store.latest_cons]

theorem newer_absorb {a b c : Option (Nat × Option Value)} (h : a = none ∨ a = b) :
    newer a (newer b c) = newer b c := by
  rcases h with rfl | rfl
  · rfl
  rcases a with _ | p
  · rfl
  · by_cases h : c.all (·.1 ≤ p.1) = true <;> simp [newer, h]


theorem Store.latest_of_not_visible {L : List Entry} {k : Key} {t : Nat}
    (h : ∀ e ∈ L, e.key ≠ k ∨ t < e.ts) : Store.latest ⟨L⟩ k t = none := by
  simpa using Store.latest_append_of_not_visible h ⟨[]⟩

theorem Store.latest_uniform {L : List Entry} {ts₀ : Nat} {v₀ : Option Value}
    (h : ∀ e ∈ L, e.ts = ts₀ ∧ e.value = v₀) (k : Key) (t : Nat) :
    Store.latest ⟨L⟩ k t = if ∃ e ∈ L, e.key = k ∧ e.ts ≤ t then some (ts₀, v₀) else none := by
  induction L with
  | nil => simp
  | cons e L ih =>
    obtain ⟨hts, hv⟩ := h e (List.mem_cons_self _ _)
    rw [Store.latest_cons, ih fun e' he' => h e' (List.mem_cons_of_mem _ he'), pickLatest]
    by_cases hvis : e.key = k ∧ e.ts ≤ t
    · have hex : ∃ e' ∈ e :: L, e'.key = k ∧ e'.ts ≤ t := ⟨e, List.mem_cons_self _ _, hvis⟩
      rw [if_pos hex, if_pos ⟨hvis.1, hvis.2, by split_ifs <;> simp [hts]⟩, hts, hv]
    · have hv' : ∀ P : Prop, ¬(e.key = k ∧ e.ts ≤ t ∧ P) := fun _ h => hvis ⟨h.1, h.2.1⟩
      simp only [hv', if_false, List.mem_cons, exists_eq_or_imp, hvis, false_or]

theorem Key.not_isBatchKey_of_multipartLog {k : Key} (hl : multipartLogPrefix k = true) :
    k.isBatchKey = true → False := by
  cases k <;> simp [Key.isBatchKey, multipartLogPrefix] at hl ⊢

/-- A restore-log block: entries of the restore log, at the metadata timestamp. -/
def IsLogBlock (L : List Entry) : Prop :=
  ∀ e ∈ L, ∃ th, e = ⟨.multipartRestoreNodeLog th, tsMetadata, some .empty⟩

theorem IsLogBlock.uniform {L : List Entry} (h : IsLogBlock L) :
    ∀ e ∈ L, e.ts = tsMetadata ∧ e.value = some .empty := fun e he => by
  obtain ⟨th, rfl⟩ := h e he
  exact ⟨rfl, rfl⟩

/-- Of two restore-log blocks, the one whose entries are among the other's reads nothing or
what the other reads. -/
theorem IsLogBlock.latest_sub {M L : List Entry} (hL : IsLogBlock L) (hsub : M ⊆ L) (k : Key)
    (t : Nat) : Store.latest ⟨M⟩ k t = none ∨ Store.latest ⟨M⟩ k t = Store.latest ⟨L⟩ k t := by
  have hM : IsLogBlock M := fun e he => hL e (hsub he)
  rw [Store.latest_uniform hM.uniform, Store.latest_uniform hL.uniform]
  split_ifs with h₁ h₂
  · exact .inr rfl
  · obtain ⟨e, he, hk⟩ := h₁
    exact absurd ⟨e, hsub he, hk⟩ h₂
  · exact .inl rfl
  · exact .inl rfl

/-- The reads of the store the retry leaves and of the store the reference run leaves: one
metadata transaction `T` and node batch `bat` on top of restore logs `logA` (the retry's) and
`logB`, and for the retry of what the failed call flushed, `X`: nothing, the restore log, or
both batches. -/
theorem retry_latest {T bat logA logB X S : List Entry}
    (hbat : ∀ e ∈ bat, e.key.isBatchKey = true) (hlog : IsLogBlock logB)
    (hsub : logA ⊆ logB) (hsup : X = [] → logB ⊆ logA) (hX : X = [] ∨ X = logB ∨ X = bat ++ logB)
    (k : Key) (t : Nat) :
    Store.latest ⟨T ++ (bat ++ (logA ++ (X ++ S)))⟩ k t =
      Store.latest ⟨T ++ (bat ++ (logB ++ S))⟩ k t := by
  have hA := hlog.latest_sub hsub k t
  rcases hX with rfl | rfl | rfl <;>
    simp only [List.append_assoc, List.nil_append, Store.latest_append_newer]
  · -- nothing was flushed: the two restore logs hold the same entries
    have hAB : Store.latest ⟨logA⟩ k t = Store.latest ⟨logB⟩ k t := by
      rcases hA with h | h
      · rcases IsLogBlock.latest_sub (fun e he => hlog e (hsub he)) (hsup rfl) k t with h' | h'
        · rw [h, h']
        · exact h'.symm
      · exact h
    rw [hAB]
  · rw [newer_absorb hA]
  · by_cases hk : multipartLogPrefix k = true
    · have hbn : Store.latest ⟨bat⟩ k t = none := Store.latest_of_not_visible fun e he =>
        .inl fun hek => Key.not_isBatchKey_of_multipartLog (hek ▸ hk) (hbat e he)
      rw [hbn, newer_none, newer_none, newer_absorb hA]
    · have hlogn : ∀ L, IsLogBlock L → Store.latest ⟨L⟩ k t = none := fun L hL =>
        Store.latest_of_not_visible fun e he => .inl fun hek => by
          obtain ⟨th, rfl⟩ := hL e he
          exact hk (hek ▸ rfl)
      rw [hlogn _ hlog, hlogn _ fun e he => hlog e (hsub he), newer_none, newer_none,
        newer_absorb (.inr rfl)]

/-! ## The flushes of `Commit` with a working store -/

theorem commitFlush_exec_of_open {id : Nat} {w : World} (hf : w.fault = none)
    (hbat : (w.batches id).bat.finished = false)
    (hmn : ∀ mn, (w.batches id).multipartNodes = some mn → mn.finished = false) (tx : Txn) :
    ∃ w', (Batch.commitFlush id tx).exec w = (.ok (), w') := by
  unfold Batch.commitFlush
  rw [exec_bind, exec_getBatch]
  dsimp only
  rcases hm : (w.batches id).multipartNodes with _ | mn
  · simp [hm, exec_bind, batchFlush, txnCommitAt, tick, hf, hbat]
  · simp [hm, exec_bind, batchFlush, txnCommitAt, tick, hf, hbat, hmn _ hm]

theorem batchFlush_ok_unfinished {b b' : WriteBatch} {w w' : World}
    (h : (batchFlush b).exec w = (.ok b', w')) : b.finished = false := by
  unfold batchFlush at h
  cases hb : b.finished
  · rfl
  · simp [hb] at h

theorem commitFlush_ok_unfinished {id : Nat} {tx : Txn} {w w' : World}
    (h : (Batch.commitFlush id tx).exec w = (.ok (), w')) :
    (w.batches id).bat.finished = false ∧
      ∀ mn, (w.batches id).multipartNodes = some mn → mn.finished = false := by
  unfold Batch.commitFlush at h
  rw [exec_bind, exec_getBatch] at h
  dsimp only at h
  rcases hm : (w.batches id).multipartNodes with _ | mn <;> simp only [hm, pure_bind] at h
  · rw [exec_bind, exec_getBatch] at h
    obtain ⟨_, _, h₁, -⟩ := exec_bind_ok h
    exact ⟨batchFlush_ok_unfinished h₁, nofun⟩
  · obtain ⟨_, w₁, h₁, h⟩ := exec_bind_ok h
    obtain ⟨_, w₂, h₂, h⟩ := exec_bind_ok h
    rw [exec_bind, exec_getBatch] at h
    obtain ⟨_, _, h₃, -⟩ := exec_bind_ok h
    simp only [exec_setBatch, Prod.mk.injEq] at h₂
    simp only [← h₂.2, if_pos] at h₃
    refine ⟨batchFlush_ok_unfinished h₃, fun mn' hmn' => ?_⟩
    cases hmn'
    exact batchFlush_ok_unfinished h₁


/-! ## Batches as a client makes them -/

/-- A call a batch makes between `NewBatch` and `Commit`. -/
inductive BatchOp
  | putNode (n : Node)
  | removeNodes (hs : List Hash)
  | putWriteLog (writeLog : Option WriteLog) (annotations : Option Annotations)

/-- The call `op` on handle `id`. -/
def BatchOp.action (id : Nat) : BatchOp → Action
  | .putNode n => .putNode id n
  | .removeNodes hs => .removeNodes id hs
  | .putWriteLog wl ann => .putWriteLog id wl ann

/-- The calls of a batch on handle `id`, each with a working store. -/
def opCalls (id : Nat) (ops : List BatchOp) : List Call :=
  ops.map fun op => ⟨op.action id, none⟩

/-- A batch: `NewBatch` into handle `id`, then its calls, each with a working store. -/
def batchCalls (id : Nat) (oldRoot : Root) (version : Nat) (chunk : Bool) (ops : List BatchOp) :
    List Call :=
  ⟨.newBatch id oldRoot version chunk, none⟩ :: opCalls id ops

theorem BatchOp.action_ne_reopen (id : Nat) (op : BatchOp) : ∀ cfg, op.action id ≠ .reopen cfg :=
  fun _ h => by cases op <;> cases h

theorem keeps_batchOp_db (id : Nat) (op : BatchOp) : Keeps Frame.db (op.action id).run := by
  cases op
  exacts [keeps_putNode _ _, keeps_removeNodes _ _, keeps_putWriteLog _ _ _]

theorem keeps_batchOp_wellFormed (id : Nat) (op : BatchOp) :
    Keeps (Frame.wellFormed (· = id)) (op.action id).run := by
  cases op
  exacts [keeps_putNode_wellFormed (P := (· = id)) rfl _,
    keeps_removeNodes_wellFormed (P := (· = id)) rfl _,
    keeps_putWriteLog_wellFormed (P := (· = id)) rfl _ _]

theorem newBatch_ok_wellFormed {id : Nat} {oldRoot : Root} {version : Nat} {chunk : Bool}
    {w w' : World} (h : (newBatch id oldRoot version chunk).exec w = (.ok (), w')) :
    (w'.batches id).WellFormed := by
  unfold newBatch at h
  simp only [exec_bind, exec_getDb, exec_ite, exec_throw, exec_pure, exec_setBatch] at h
  split at h
  · cases h
  split at h
  · cases h
  split at h
  · cases h
  obtain ⟨-, rfl⟩ := Prod.mk.inj h
  simp only [if_pos]
  exact fresh_wellFormed _ _ _ _ _

/-! ## The first batch -/

/-- A call other than `New` runs its operation on the state's world, and the state keeps
the database and the handles the operation leaves. -/
theorem step_exec {s : Sys} {a : Action} (ha : ∀ cfg, a ≠ .reopen cfg) (f : Option Nat) :
    (step s ⟨a, f⟩).1 = (a.run.exec (s.world f)).1 ∧
      (step s ⟨a, f⟩).2.db = (a.run.exec (s.world f)).2.db ∧
      (step s ⟨a, f⟩).2.batches = (a.run.exec (s.world f)).2.batches := by
  cases a <;> first | exact ⟨rfl, rfl, rfl⟩ | exact absurd rfl (ha _)

theorem exec_of_step {s s' : Sys} {a : Action} (ha : ∀ cfg, a ≠ .reopen cfg) {f : Option Nat}
    {r : Except Error Unit} (h : step s ⟨a, f⟩ = (r, s')) :
    ∃ w, a.run.exec (s.world f) = (r, w) ∧ s'.db = w.db ∧ s'.batches = w.batches := by
  obtain ⟨h₁, h₂, h₃⟩ := step_exec (s := s) ha f
  rw [h] at h₁ h₂ h₃
  exact ⟨_, Prod.ext h₁.symm rfl, h₂, h₃⟩

theorem step_of_exec {s : Sys} {a : Action} (ha : ∀ cfg, a ≠ .reopen cfg) {f : Option Nat}
    {r : Except Error Unit} {w : World} (h : a.run.exec (s.world f) = (r, w)) :
    ∃ s', step s ⟨a, f⟩ = (r, s') ∧ s'.db = w.db ∧ s'.batches = w.batches := by
  obtain ⟨h₁, h₂, h₃⟩ := step_exec (s := s) ha f
  rw [h] at h₁ h₂ h₃
  exact ⟨_, Prod.ext h₁ rfl, h₂, h₃⟩

/-- The calls of a batch keep the database, and keep its handle well formed. -/
theorem run_opCalls_wellFormed (id : Nat) : ∀ (ops : List BatchOp) (s : Sys),
    (s.batches id).WellFormed →
      (run s (opCalls id ops)).2.db = s.db ∧ ((run s (opCalls id ops)).2.batches id).WellFormed
  | [], _, h => ⟨rfl, h⟩
  | op :: ops, s, h => by
    obtain ⟨-, hdb, hb⟩ := step_exec (s := s) (op.action_ne_reopen id) none
    obtain ⟨h₁, h₂⟩ := run_opCalls_wellFormed id ops (step s ⟨op.action id, none⟩).2 (by
      rw [hb]
      exact keeps_batchOp_wellFormed id op (s.world none) (fun _ hi => hi ▸ h) id rfl)
    exact ⟨h₁.trans (hdb.trans (keeps_batchOp_db id op (s.world none))), h₂⟩

/-- A batch whose `NewBatch` succeeds keeps the database and leaves a well-formed handle. -/
theorem run_batchCalls_wellFormed {s : Sys} {id : Nat} {oldRoot : Root} {version : Nat}
    {chunk : Bool} (hnew : (step s ⟨.newBatch id oldRoot version chunk, none⟩).1 = .ok ())
    (ops : List BatchOp) :
    (run s (batchCalls id oldRoot version chunk ops)).2.db = s.db ∧
      ((run s (batchCalls id oldRoot version chunk ops)).2.batches id).WellFormed := by
  obtain ⟨w, hx, hdb, hb⟩ :=
    exec_of_step (a := .newBatch id oldRoot version chunk) nofun (Prod.ext hnew rfl)
  obtain ⟨h₂, h₃⟩ := run_opCalls_wellFormed id ops (step s ⟨.newBatch id oldRoot version chunk, none⟩).2
    (hb ▸ newBatch_ok_wellFormed hx)
  exact ⟨h₂.trans (hdb.trans ((keeps_newBatch id oldRoot version chunk).rel_of_exec hx)), h₃⟩

/-! ## The retry in lockstep -/

section Lockstep

variable {X : List Entry} {idA idB : Nat}

theorem lockstep_batchOp (hX : ∀ e ∈ X, e.FromHandle) (op : BatchOp) :
    Lockstep (RetryRel X true idA idB) Eq (op.action idA).run (op.action idB).run := by
  cases op
  exacts [lockstep_putNode hX _, lockstep_removeNodes _, lockstep_putWriteLog _ _]

/-- A call on each side with a working store, in lockstep: both return the same, and the
states they leave are related again. -/
theorem step_retry {live : Bool} {sA sB : Sys} {aA aB : Action} (hA : ∀ cfg, aA ≠ .reopen cfg)
    (hB : ∀ cfg, aB ≠ .reopen cfg) (hp : Lockstep (RetryRel X live idA idB) Eq aA.run aB.run)
    (h : RetryRel X live idA idB (sA.world none) (sB.world none)) :
    (step sA ⟨aA, none⟩).1 = (step sB ⟨aB, none⟩).1 ∧ RetryRel X live idA idB
      ((step sA ⟨aA, none⟩).2.world none) ((step sB ⟨aB, none⟩).2.world none) := by
  obtain ⟨hA₁, hA₂, hA₃⟩ := step_exec (s := sA) hA none
  obtain ⟨hB₁, hB₂, hB₃⟩ := step_exec (s := sB) hB none
  have ho := hp _ _ h
  unfold Sys.world
  rw [hA₁, hB₁, hA₂, hB₂, hA₃, hB₃]
  generalize aA.run.exec (sA.world none) = oA at ho ⊢
  generalize aB.run.exec (sB.world none) = oB at ho ⊢
  rcases oA with ⟨_ | _, wA⟩ <;> rcases oB with ⟨_ | _, wB⟩ <;>
    first | exact ho.elim | exact ⟨by rw [ho.1], rfl, rfl, ho.2.db, ho.2.slot⟩

/-- The calls of the two batches, in lockstep. -/
theorem run_opCalls_retry (hX : ∀ e ∈ X, e.FromHandle) : ∀ (ops : List BatchOp) (sA sB : Sys),
    RetryRel X true idA idB (sA.world none) (sB.world none) → RetryRel X true idA idB
      ((run sA (opCalls idA ops)).2.world none) ((run sB (opCalls idB ops)).2.world none)
  | [], _, _, h => h
  | op :: ops, _, _, h => run_opCalls_retry hX ops _ _
      (step_retry (op.action_ne_reopen idA) (op.action_ne_reopen idB) (lockstep_batchOp hX op) h).2

/-- A fresh batch on a database that has `X` above the reference one's store runs in
lockstep with the reference batch, once the reference `NewBatch` succeeds. -/
theorem run_batchCalls_retry (hX : ∀ e ∈ X, e.FromHandle) {sA sB : Sys} {oldRoot : Root}
    {version : Nat} {chunk : Bool} (hdb : sA.db = { sB.db with store := ⟨X ++ sB.db.store.entries⟩ })
    (hnew : (step sB ⟨.newBatch idB oldRoot version chunk, none⟩).1 = .ok ()) (ops : List BatchOp) :
    RetryRel X true idA idB ((run sA (batchCalls idA oldRoot version chunk ops)).2.world none)
      ((run sB (batchCalls idB oldRoot version chunk ops)).2.world none) := by
  obtain ⟨hB₁, hB₂, hB₃⟩ := step_exec (s := sB) (a := .newBatch idB oldRoot version chunk) nofun none
  obtain ⟨-, hA₂, hA₃⟩ := step_exec (s := sA) (a := .newBatch idA oldRoot version chunk) nofun none
  have hx : (newBatch idB oldRoot version chunk).exec (sB.world none) = (.ok (), _) :=
    Prod.ext (hB₁.symm.trans hnew) rfl
  obtain ⟨wA, hxA, hR⟩ := newBatch_retry (show (sA.world none).fault = none from rfl)
    (show (sB.world none).fault = none from rfl) hdb hx
  have hxA' : (Action.newBatch idA oldRoot version chunk).run.exec (sA.world none) = (.ok (), wA) :=
    hxA
  refine run_opCalls_retry hX ops _ _ ?_
  unfold Sys.world
  rw [hA₂, hA₃, hB₂, hB₃, hxA']
  exact ⟨rfl, rfl, hR.db, hR.slot⟩

/-- The two `Commit` calls with working stores: when the retry's succeeds so does the
reference one, and every read sees the two databases alike. -/
theorem commit_retry_exec (hX : ∀ e ∈ X, e.FromHandle) {wA wB wA' : World} {root : Root}
    (h : RetryRel X true idA idB wA wB) (hwf : (wB.batches idB).WellFormed)
    (hXs : X = [] ∨ ∃ tx wF, (commitPrepare idB root).exec wB = (.ok (some tx), wF) ∧
      (X = (wF.batches idB).logWrites ∨
        X = (wF.batches idB).bat.writes ++ (wF.batches idB).logWrites))
    (hA : (Batch.commit idA root).exec wA = (.ok (), wA')) :
    ∃ wB', (Batch.commit idB root).exec wB = (.ok (), wB') ∧
      wA'.db = { wB'.db with store := wA'.db.store } ∧
      ∀ k t, wA'.db.store.latest k t = wB'.db.store.latest k t := by
  have hp := lockstep_commitPrepare hX root wA wB h.settle
  rcases commit_ok_cases hA with hpA | ⟨tx, wA₁, hpA, hfA⟩
  · -- the root was stored already: both calls reset their batches and write nothing
    rw [hpA] at hp
    obtain ⟨wB', hpB, hR⟩ := Outcomes.ok_left hp
    have hX0 : X = [] := hXs.resolve_right fun ⟨_, _, hF, _⟩ => by rw [hpB] at hF; cases hF
    refine ⟨wB', by rw [commit_eq_prepare, exec_bind, hpB]; rfl, by rw [hR.db],
      fun k t => by rw [hR.db, hX0]; rfl⟩
  · rw [hpA] at hp
    obtain ⟨wB₁, hpB, hR⟩ := Outcomes.ok_left hp
    obtain ⟨hbatA, hmnA⟩ := commitFlush_ok_unfinished hfA
    obtain ⟨hsub, hsup, hmn⟩ := hR.slot.logWrites
    have hbat := hR.slot.bat_eq
    obtain ⟨wB', hfB⟩ := commitFlush_exec_of_open hR.faultB (hbat ▸ hbatA) (hmn hmnA) tx
    have hwf₁ : (wB₁.batches idB).WellFormed :=
      (keeps_commitPrepare_wellFormed (P := (· = idB)) rfl root).rel_of_exec hpB
        (fun _ hi => hi ▸ hwf) idB rfl
    have hXs₁ : X = [] ∨ X = (wB₁.batches idB).logWrites ∨
        X = (wB₁.batches idB).bat.writes ++ (wB₁.batches idB).logWrites :=
      hXs.imp_right fun ⟨_, _, hF, hX'⟩ => by rw [hpB] at hF; cases hF; exact hX'
    refine ⟨wB', by rw [commit_eq_prepare, exec_bind, hpB]; exact hfB, ?_, fun k t => ?_⟩
    · rw [commitFlush_ok hfA, commitFlush_ok hfB, hR.db]
    · rw [commitFlush_ok hfA, commitFlush_ok hfB, hR.db, hbat]
      exact retry_latest (fun e he => (hwf₁.bat e he).1) hwf₁.logWrites hsub hsup hXs₁ k t

end Lockstep

/-! ## A retry after a failed `Commit` -/

/-- A batch whose `Commit` fails, then, right after it, a fresh batch with the same
`NewBatch` and the same calls whose `Commit` succeeds, under any fault plan: the first
batch's `Commit` succeeds with a working store, in a database that every read sees as the
retry's. -/
theorem commit_retry {s s₁ s₂ : Sys} {id id' : Nat} {oldRoot : Root} {version : Nat}
    {chunk : Bool} {ops : List BatchOp} {root : Root} {fault fault' : Option Nat} {e : Error}
    (hnew : (step s ⟨.newBatch id oldRoot version chunk, none⟩).1 = .ok ())
    (hfail : step (run s (batchCalls id oldRoot version chunk ops)).2 ⟨.commit id root, fault⟩ =
      (.error e, s₁))
    (hretry : step (run s₁ (batchCalls id' oldRoot version chunk ops)).2 ⟨.commit id' root, fault'⟩ =
      (.ok (), s₂)) :
    ∃ s₃, step (run s (batchCalls id oldRoot version chunk ops)).2 ⟨.commit id root, none⟩ =
        (.ok (), s₃) ∧
      s₂.db = { s₃.db with store := s₂.db.store } ∧ ∀ k t, s₂.db.store.get k t = s₃.db.store.get k t := by
  obtain ⟨hdbB, hwf⟩ := run_batchCalls_wellFormed hnew ops
  generalize hsB : (run s (batchCalls id oldRoot version chunk ops)).2 = sB at hdbB hwf hfail ⊢
  obtain ⟨w₁, hx, rfl⟩ := step_commit_error hfail
  obtain ⟨X, hX, hdb₁, hXs⟩ := commit_error_store hwf hx
  have hdbA : w₁.db = { s.db with store := ⟨X ++ s.db.store.entries⟩ } := by
    rw [hdb₁, ← hdbB]
    rfl
  have hR : RetryRel X true id' id ((run { sB with db := w₁.db, batches := w₁.batches }
      (batchCalls id' oldRoot version chunk ops)).2.world none) (sB.world none) :=
    hsB ▸ run_batchCalls_retry hX hdbA hnew ops
  generalize (run { sB with db := w₁.db, batches := w₁.batches }
    (batchCalls id' oldRoot version chunk ops)).2 = sA at hR hretry
  obtain ⟨wA, hxA, hs₂, -⟩ := exec_of_step (a := .commit id' root) nofun hretry
  -- the retry's `Commit` succeeded, so it ran as with a working store
  have hxA' := commit_without_fault id' root _ _ _ hxA
  rw [show { sA.world fault' with fault := none } = sA.world none from rfl] at hxA'
  obtain ⟨wB, hxB, hdb, hl⟩ := commit_retry_exec hX hR hwf hXs hxA'
  obtain ⟨s₃, h₃, hs₃, -⟩ := step_of_exec (a := .commit id root) nofun hxB
  refine ⟨s₃, h₃, by rw [hs₂, hs₃]; exact hdb, fun k t => ?_⟩
  rw [hs₂, hs₃]
  unfold Store.get
  rw [show wA.db.store.latest k t = wB.db.store.latest k t from hl k t]

/-- A failed `Commit` from a reachable state leaves the roots as they were
(`commit_error_keeps_roots`); and a fresh batch with the same `NewBatch` and calls, made
right after a failed `Commit`, whose `Commit` succeeds under any fault plan reaches, for
every read, the database that the first batch's `Commit` leaves with a working store
(`commit_retry`). -/
theorem commit_error_then_retry (cfg : Config) :
    (∀ {s s' : Sys} {id : Nat} {root : Root} {fault : Option Nat} {e : Error}, Reachable cfg s →
      step s ⟨.commit id root, fault⟩ = (.error e, s') →
      (∀ r v, s'.query (hasRoot r) = s.query (hasRoot r) ∧
        s'.query (getRootsForVersion v) = s.query (getRootsForVersion v)) ∧
      ∀ v t, s'.db.store.get (.rootsMetadata v) t = s.db.store.get (.rootsMetadata v) t ∧
        ∀ th, s'.db.store.get (.rootUpdatedNodes v th) t =
          s.db.store.get (.rootUpdatedNodes v th) t) ∧
    ∀ {s s₁ s₂ : Sys} {id id' : Nat} {oldRoot : Root} {version : Nat} {chunk : Bool}
      {ops : List BatchOp} {root : Root} {fault fault' : Option Nat} {e : Error},
      (step s ⟨.newBatch id oldRoot version chunk, none⟩).1 = .ok () →
      step (run s (batchCalls id oldRoot version chunk ops)).2 ⟨.commit id root, fault⟩ =
        (.error e, s₁) →
      step (run s₁ (batchCalls id' oldRoot version chunk ops)).2 ⟨.commit id' root, fault'⟩ =
        (.ok (), s₂) →
      ∃ s₃, step (run s (batchCalls id oldRoot version chunk ops)).2 ⟨.commit id root, none⟩ =
          (.ok (), s₃) ∧
        s₂.db = { s₃.db with store := s₂.db.store } ∧
        ∀ k t, s₂.db.store.get k t = s₃.db.store.get k t :=
  ⟨fun hs h => commit_error_keeps_roots hs h, commit_retry⟩

/-- The root of a batch that puts one leaf at version 0 from the empty root. -/
def leafRoot : Root := ⟨7, 0, .state, (Node.leaf 1 10).getHash⟩

/-- That batch's `Commit` fails at the store's sixth step, after its node batch is
flushed; the roots are as before, and the batch retried on handle 1 reaches what the first
`Commit` reaches with a working store. -/
theorem commit_error_then_retry_leaf :
    let s : Sys := (run (Sys.fresh ⟨7, false, false⟩)
      (batchCalls 0 ⟨7, 0, .state, 0⟩ 0 false [.putNode (.leaf 1 10)])).2
    let s₁ := (step s ⟨.commit 0 leafRoot, some 5⟩).2
    let s₂ := (step (run s₁ (batchCalls 1 ⟨7, 0, .state, 0⟩ 0 false [.putNode (.leaf 1 10)])).2
      ⟨.commit 1 leafRoot, none⟩).2
    (step s ⟨.commit 0 leafRoot, some 5⟩).1 = .error .storage ∧
      s₁.db.store.entries.length = s.db.store.entries.length + 2 ∧
      (∀ v t, s₁.db.store.get (.rootsMetadata v) t = s.db.store.get (.rootsMetadata v) t) ∧
      ∃ s₃, step s ⟨.commit 0 leafRoot, none⟩ = (.ok (), s₃) ∧
        ∀ k t, s₂.db.store.get k t = s₃.db.store.get k t := by
  intro s s₁ s₂
  have hs : Reachable ⟨7, false, false⟩ s :=
    .step _ (.step _ .fresh ⟨by decide, by decide⟩ (.inl (by decide))) trivial (.inl (by decide))
  have hfail : step s ⟨.commit 0 leafRoot, some 5⟩ = (.error .storage, s₁) := Prod.ext (by decide) rfl
  have hretry : step (run s₁ (batchCalls 1 ⟨7, 0, .state, 0⟩ 0 false [.putNode (.leaf 1 10)])).2
      ⟨.commit 1 leafRoot, none⟩ = (.ok (), s₂) := Prod.ext (by decide) rfl
  obtain ⟨s₃, h₃, -, hget⟩ := (commit_error_then_retry ⟨7, false, false⟩).2 (by decide) hfail hretry
  exact ⟨by decide, by decide,
    fun v t => (((commit_error_then_retry ⟨7, false, false⟩).1 hs hfail).2 v t).1, s₃, h₃, hget⟩

end Mkvs.Badger
