import Mkvs.Proofs.Frame

/-!
# The write-log search

`GetWriteLog(start, end)` walks back from the end root over the write logs stored at the
end root's version: a log keyed `(V, n, o)` is an edge (`LogEdge`) from `n` back to `o`.
The search never queues an item of depth two, so its queue holds the end root and then the
old roots of the logs that end in it (`logTargets`); the fuel `GetWriteLog` gives the loop,
one more than the number of versions in the store, covers all of them
(`length_logTargets_le`).

The result is therefore decided by two levels of the graph, cycles or not
(`getWriteLog_chain`): the one-hop chain whenever the log `(V, end, start)` exists, else a
two-hop chain through an old root of a log that ends in `end`, else `WriteLogNotFound`.
The iterator streams the logs of its path in the order the search found them, from the end
root back.
-/

namespace Mkvs.Badger

/-! ## The graph of write logs -/

/-- A write log of `version` from `newRoot` back to `oldRoot`, visible at `ts`. -/
def LogEdge (s : Store) (ts version : Nat) (newRoot oldRoot : TypedHash) : Prop :=
  (s.get (.writeLog version newRoot oldRoot) ts).isSome

instance (s : Store) (ts version : Nat) (n o : TypedHash) :
    Decidable (LogEdge s ts version n o) :=
  inferInstanceAs (Decidable (_ = true))

/-- The old roots of the write logs of `version` that end in `newRoot`, in key order. -/
def logTargets (s : Store) (ts version : Nat) (newRoot : TypedHash) : List TypedHash :=
  (s.scan (writeLogPrefix version newRoot) ts).filterMap fun
    | .writeLog _ _ o => some o
    | _ => none

theorem eq_writeLog_of_prefix {version : Nat} {newRoot : TypedHash} {k : Key}
    (h : writeLogPrefix version newRoot k = true) : ∃ o, k = .writeLog version newRoot o := by
  cases k <;> simp only [writeLogPrefix, Bool.and_eq_true, beq_iff_eq, reduceCtorEq] at h
  obtain ⟨rfl, rfl⟩ := h
  exact ⟨_, rfl⟩

/-- The prefix iteration of the search yields the logs to the targets, in order. -/
theorem scan_writeLogPrefix (s : Store) (ts version : Nat) (newRoot : TypedHash) :
    s.scan (writeLogPrefix version newRoot) ts =
      (logTargets s ts version newRoot).map (Key.writeLog version newRoot) := by
  unfold logTargets
  have hp : ∀ k ∈ s.scan (writeLogPrefix version newRoot) ts, writeLogPrefix version newRoot k :=
    fun k hk => (Store.mem_scan.mp hk).1
  generalize s.scan (writeLogPrefix version newRoot) ts = ks at hp ⊢
  induction ks with
  | nil => rfl
  | cons k ks ih =>
    obtain ⟨o, rfl⟩ := eq_writeLog_of_prefix (hp k (List.mem_cons_self _ _))
    simp only [List.filterMap_cons, List.map_cons]
    exact congrArg _ (ih fun k hk => hp k (List.mem_cons_of_mem _ hk))

theorem mem_logTargets {s : Store} {ts version : Nat} {newRoot oldRoot : TypedHash} :
    oldRoot ∈ logTargets s ts version newRoot ↔ LogEdge s ts version newRoot oldRoot := by
  rw [← List.mem_map_of_injective (f := Key.writeLog version newRoot) fun _ _ h => by cases h; rfl,
    ← scan_writeLogPrefix, Store.mem_scan]
  simp [LogEdge, writeLogPrefix]

theorem length_insertKey_le (k : Key) : ∀ ks : List Key, (insertKey k ks).length ≤ ks.length + 1
  | [] => le_rfl
  | k' :: ks => by
    unfold insertKey
    split
    · simp
    · split
      · simp
      · simpa using length_insertKey_le k ks

theorem length_scan_le (s : Store) (p : Key → Bool) (t : Nat) :
    (s.scan p t).length ≤ s.entries.length := by
  refine (List.length_filter_le _ _).trans ?_
  induction s.entries with
  | nil => exact le_rfl
  | cons e es ih =>
    rw [List.foldr_cons, List.length_cons]
    split
    · exact (length_insertKey_le _ _).trans (Nat.succ_le_succ ih)
    · exact ih.trans (Nat.le_succ _)

/-- A root has no more targets than the store has versions. -/
theorem length_logTargets_le (s : Store) (ts version : Nat) (newRoot : TypedHash) :
    (logTargets s ts version newRoot).length ≤ s.entries.length :=
  (List.length_filterMap_le _ _).trans (length_scan_le _ _ _)

/-! ## The search loop -/

@[simp] theorem except_ok_bind {ε α β : Type} (a : α) (f : α → Except ε β) :
    (Except.ok a >>= f) = f a := rfl

@[simp] theorem except_pure {ε α : Type} (a : α) : (pure a : Except ε α) = .ok a := rfl

/-- The inner loop over the logs that end in `cur`'s root: it finds the start root if one of
them leads to it, and queues the items before that log when they are not too deep. -/
theorem scanWriteLogs_map (start : TypedHash) (cur : WlItem) (version : Nat) (n : TypedHash) :
    ∀ os : List TypedHash, scanWriteLogs start cur (os.map (Key.writeLog version n)) =
      .ok (if start ∈ os then some (cur.next (.writeLog version n start) start) else none,
        if cur.depth + 1 < maxAllowedHops then
          (os.takeWhile (· ≠ start)).map fun o => cur.next (.writeLog version n o) o else [])
  | [] => by simp [scanWriteLogs]
  | o :: os => by
    rw [List.map_cons, scanWriteLogs]
    by_cases ho : o = start
    · subst ho
      simp [WlItem.next]
    · have hne : (cur.next (.writeLog version n o) o).endRootHash ≠ start := ho
      rw [if_neg hne, scanWriteLogs_map start cur version n os]
      simp only [List.mem_cons, Ne.symm ho, false_or, List.takeWhile_cons, ne_eq, ho,
        not_false_eq_true, decide_True, if_true, WlItem.next]
      by_cases hc : cur.depth + 1 < maxAllowedHops <;> simp only [hc, if_true, if_false] <;> rfl

/-- The item one log leads to from the end root. -/
def hopItem (version : Nat) (endRoot x : TypedHash) : WlItem :=
  (⟨0, endRoot, [], []⟩ : WlItem).next (.writeLog version endRoot x) x

@[simp] theorem hopItem_depth (version : Nat) (endRoot x : TypedHash) :
    (hopItem version endRoot x).depth = 1 := rfl

/-- The second level of the search: the items one log away from the end root, each of whose
targets is the start root or too deep to queue. -/
theorem searchWriteLogs_level_one (s : Store) (ts version : Nat) (start E : TypedHash) :
    ∀ (xs : List TypedHash) (fuel : Nat), xs.length ≤ fuel →
      searchWriteLogs s ts version start fuel (xs.map (hopItem version E)) =
        .ok ((xs.find? fun x => start ∈ logTargets s ts version x).map fun x =>
          (hopItem version E x).next (.writeLog version x start) start)
  | [], fuel, _ => by cases fuel <;> rfl
  | x :: xs, fuel + 1, h => by
    simp only [List.map_cons, searchWriteLogs, scan_writeLogPrefix]
    rw [show (hopItem version E x).endRootHash = x from rfl, scanWriteLogs_map]
    by_cases hx : start ∈ logTargets s ts version x
    · simp [hx]
    · have hrest := searchWriteLogs_level_one s ts version start E xs fuel
        (Nat.le_of_succ_le_succ h)
      simpa [hx, maxAllowedHops] using hrest

/-- The whole search from the end root, given more fuel than the end root has targets. -/
theorem searchWriteLogs_from_end (s : Store) (ts version : Nat) (start E : TypedHash)
    (fuel : Nat) (hfuel : (logTargets s ts version E).length < fuel) :
    searchWriteLogs s ts version start fuel [⟨0, E, [], []⟩] =
      .ok (if start ∈ logTargets s ts version E then some (hopItem version E start)
        else ((logTargets s ts version E).find? fun x => start ∈ logTargets s ts version x).map
          fun x => (hopItem version E x).next (.writeLog version x start) start) := by
  obtain ⟨fuel, rfl⟩ : ∃ f, fuel = f + 1 := ⟨fuel - 1, by omega⟩
  simp only [searchWriteLogs, scan_writeLogPrefix, scanWriteLogs_map]
  by_cases hs : start ∈ logTargets s ts version E
  · simp [hs, hopItem]
  · have htake : (logTargets s ts version E).takeWhile (· ≠ start) = logTargets s ts version E :=
      List.takeWhile_eq_self_iff.mpr fun x hx => by
        simpa using fun h : x = start => hs (h ▸ hx)
    simp only [hs, if_false, htake, List.nil_append]
    have := searchWriteLogs_level_one s ts version start E (logTargets s ts version E) fuel
      (by omega)
    simpa [hopItem, maxAllowedHops] using this

/-! ## `GetWriteLog` -/

theorem sanityCheckNamespace_exec {w : World} {ns : Nat} (h : ns = w.db.ns) :
    (sanityCheckNamespace ns).exec w = (.ok (), w) := by
  simp [sanityCheckNamespace, exec_bind, h]

theorem checkRoot_exec {w : World} (hf : w.fault = none) {ts : Nat} {root : Root}
    (h : (w.db.store.get (.rootNode (TypedHash.fromRoot root)) ts).isSome) :
    (checkRoot (Txn.new ts) root).exec w = (.ok (), w) := by
  simp only [checkRoot, exec_bind, txnGet_new_exec hf]
  simp [Option.isSome_iff_ne_none.mp h]

/-- `GetWriteLog` after its preliminary checks: the search from the end root, over the
store as it is, with the fuel the code gives it. -/
theorem getWriteLog_exec {w : World} {startRoot endRoot : Root} (hf : w.fault = none)
    (hkeep : w.db.discardWriteLogs = false) (hfollows : endRoot.follows startRoot = true)
    (hns : startRoot.ns = w.db.ns) (hearliest : w.db.meta.earliestVersion ≤ endRoot.version)
    (hroot : (w.db.store.get (.rootNode (TypedHash.fromRoot endRoot))
      (versionToTs endRoot.version)).isSome) :
    (getWriteLog startRoot endRoot).exec w =
      match searchWriteLogs w.db.store (versionToTs endRoot.version) endRoot.version
          (TypedHash.fromRoot startRoot) (w.db.store.entries.length + 1)
          [⟨0, TypedHash.fromRoot endRoot, [], []⟩] with
      | .error e => (.error e, w)
      | .ok (some item) =>
        (.ok ⟨Txn.new (versionToTs endRoot.version), endRoot, item.logKeys, item.logRoots⟩, w)
      | .ok none => (.error .writeLogNotFound, w) := by
  simp only [getWriteLog, exec_bind, exec_getDb, hkeep, hfollows, Bool.not_true, Bool.false_eq_true,
    if_false, exec_pure, sanityCheckNamespace_exec hns, Nat.not_lt.mpr hearliest,
    checkRoot_exec hf hroot, Txn.new_readTs]
  rcases searchWriteLogs w.db.store (versionToTs endRoot.version) endRoot.version
    (TypedHash.fromRoot startRoot) (w.db.store.entries.length + 1)
    [⟨0, TypedHash.fromRoot endRoot, [], []⟩] with _ | _ | _ <;> rfl

/-! ## The result of the search

The run `ioTreeTrace` builds an I/O tree in two hops at version 3, each hop writing key 1;
it serves as the concrete instance of the result below. -/

/-- The configuration of the runs in this file. -/
def demoConfig : Config := ⟨7, false, false⟩

/-- The empty I/O root of version 3, and the roots of its two hops. -/
def ioEmpty : Root := ⟨7, 3, .io, 0⟩
def ioRootFirst : Root := ⟨7, 3, .io, 31⟩
def ioRootSecond : Root := ⟨7, 3, .io, 32⟩

/-- The logs of the two hops, each writing key 1. -/
def ioLogFirst : WriteLog := [⟨1, some 1⟩]
def ioLogSecond : WriteLog := [⟨1, some 2⟩]

/-- Commit the first hop from the empty root with log `ioLogFirst`, then the second hop from
`ioRootFirst` with log `ioLogSecond`. -/
def ioTreeTrace : List Call :=
  [⟨.newBatch 0 ioEmpty 3 false, none⟩, ⟨.putNode 0 (.leaf 1 1), none⟩,
    ⟨.putWriteLog 0 (some ioLogFirst) (some ⟨⟩), none⟩, ⟨.commit 0 ioRootFirst, none⟩,
    ⟨.newBatch 1 ioRootFirst 3 false, none⟩, ⟨.putNode 1 (.leaf 1 2), none⟩,
    ⟨.putWriteLog 1 (some ioLogSecond) (some ⟨⟩), none⟩, ⟨.commit 1 ioRootSecond, none⟩]

/-- For every store and every start and end root that pass `GetWriteLog`'s preliminary
checks, `GetWriteLog` returns an iterator exactly when one or two stored logs of the end
root's version lead from the end root back to the start root, through the one-hop chain
whenever there is one, and `WriteLogNotFound` otherwise. It changes nothing. -/
theorem getWriteLog_chain (w : World) (startRoot endRoot : Root) (hf : w.fault = none)
    (hkeep : w.db.discardWriteLogs = false) (hfollows : endRoot.follows startRoot = true)
    (hns : startRoot.ns = w.db.ns) (hearliest : w.db.meta.earliestVersion ≤ endRoot.version)
    (hroot : (w.db.store.get (.rootNode (TypedHash.fromRoot endRoot))
      (versionToTs endRoot.version)).isSome) :
    let V := endRoot.version
    let E := TypedHash.fromRoot endRoot
    let S := TypedHash.fromRoot startRoot
    let edge := LogEdge w.db.store (versionToTs V) V
    match (getWriteLog startRoot endRoot).exec w with
    | (.ok it, w') => w' = w ∧ it.tx = Txn.new (versionToTs V) ∧ it.endRoot = endRoot ∧
        ((edge E S ∧ it.logKeys = [.writeLog V E S] ∧ it.logRoots = [E]) ∨
          (¬edge E S ∧ ∃ x, edge E x ∧ edge x S ∧
            it.logKeys = [.writeLog V E x, .writeLog V x S] ∧ it.logRoots = [E, x]))
    | (.error e, w') => w' = w ∧ e = .writeLogNotFound ∧ ¬edge E S ∧ ∀ x, edge E x → ¬edge x S := by
  dsimp only
  have hfuel := length_logTargets_le w.db.store (versionToTs endRoot.version) endRoot.version
    (TypedHash.fromRoot endRoot)
  rw [getWriteLog_exec hf hkeep hfollows hns hearliest hroot,
    searchWriteLogs_from_end _ _ _ _ _ _ (by omega)]
  by_cases hES : TypedHash.fromRoot startRoot ∈ logTargets w.db.store
    (versionToTs endRoot.version) endRoot.version (TypedHash.fromRoot endRoot)
  · rw [if_pos hES]
    exact ⟨rfl, rfl, rfl, .inl ⟨mem_logTargets.mp hES, rfl, rfl⟩⟩
  · rw [if_neg hES]
    rcases hx : (logTargets w.db.store (versionToTs endRoot.version) endRoot.version
      (TypedHash.fromRoot endRoot)).find? (fun x => TypedHash.fromRoot startRoot ∈
        logTargets w.db.store (versionToTs endRoot.version) endRoot.version x) with _ | x
    · -- no old root of a log into the end root has a log into the start root
      refine ⟨rfl, rfl, mt mem_logTargets.mpr hES, fun x hEx hxS => ?_⟩
      exact absurd (decide_eq_true (mem_logTargets.mpr hxS))
        (List.find?_eq_none.mp hx x (mem_logTargets.mpr hEx))
    · -- the first such old root in key order
      refine ⟨rfl, rfl, rfl, .inr ⟨mt mem_logTargets.mpr hES, x,
        mem_logTargets.mp (List.mem_of_find?_eq_some hx),
        mem_logTargets.mp (by simpa using List.find?_some hx), rfl, rfl⟩⟩

/-- The search from the empty I/O root to `ioRootSecond` after `ioTreeTrace` meets the conditions of
`getWriteLog_chain`. -/
theorem getWriteLog_chain_ioTree :
    let w := (run (Sys.fresh demoConfig) ioTreeTrace).2.world none
    let V := ioRootSecond.version
    let E := TypedHash.fromRoot ioRootSecond
    let S := TypedHash.fromRoot ioEmpty
    let edge := LogEdge w.db.store (versionToTs V) V
    w.fault = none ∧ w.db.discardWriteLogs = false ∧ ioRootSecond.follows ioEmpty = true ∧
      ioEmpty.ns = w.db.ns ∧ w.db.meta.earliestVersion ≤ V ∧
      (w.db.store.get (.rootNode E) (versionToTs V)).isSome ∧
      match (getWriteLog ioEmpty ioRootSecond).exec w with
      | (.ok it, w') => w' = w ∧ it.tx = Txn.new (versionToTs V) ∧ it.endRoot = ioRootSecond ∧
          ((edge E S ∧ it.logKeys = [.writeLog V E S] ∧ it.logRoots = [E]) ∨
            (¬edge E S ∧ ∃ x, edge E x ∧ edge x S ∧
              it.logKeys = [.writeLog V E x, .writeLog V x S] ∧ it.logRoots = [E, x]))
      | (.error e, w') => w' = w ∧ e = .writeLogNotFound ∧ ¬edge E S ∧
          ∀ x, edge E x → ¬edge x S :=
  ⟨rfl, by decide, by decide, by decide, by decide, by decide,
    getWriteLog_chain _ ioEmpty ioRootSecond rfl (by decide) (by decide) (by decide) (by decide)
      (by decide)⟩

/-! ## Two runs whose logs `GetWriteLog` does not serve as committed

In both runs every call succeeds. On `ioTreeTrace` the two-hop iterator streams the second
hop's log first, so its entries applied in order leave key 1 at the first hop's value. In
the second run a root `R` is committed from two parents with the same write log; the
second `Commit` finds `R` present and takes the no-op path, so the second parent has no
log to `R`. -/

set_option maxRecDepth 20000 in
/-- The two-hop iterator from the empty root to `ioRootSecond` yields the second hop's log
before the first hop's. -/
theorem getWriteLog_streams_end_hop_first :
    (run (Sys.fresh demoConfig) ioTreeTrace).1.all Except.isOk ∧
      (run (Sys.fresh demoConfig) ioTreeTrace).2.query
        (do let it ← getWriteLog ioEmpty ioRootSecond; it.drain) = .ok (ioLogSecond ++ ioLogFirst) ∧
      ioLogSecond ++ ioLogFirst ≠ ioLogFirst ++ ioLogSecond := by
  decide

/-- Roots of version 1: two parents, and the root committed from both. -/
def parentA : Root := ⟨7, 1, .state, 100⟩
def parentB : Root := ⟨7, 1, .state, 200⟩
def sharedRoot : Root := ⟨7, 1, .state, 300⟩

/-- The write log both commits of `sharedRoot` put. -/
def sharedLog : WriteLog := [⟨1, some 10⟩]

/-- Commit `A` and `B` from the empty root, then `R` from `A` and from `B`, each time with
the same node and write log. -/
def twoParentTrace : List Call :=
  [⟨.newBatch 0 ⟨7, 1, .state, 0⟩ 1 false, none⟩, ⟨.commit 0 parentA, none⟩,
    ⟨.newBatch 1 ⟨7, 1, .state, 0⟩ 1 false, none⟩, ⟨.commit 1 parentB, none⟩,
    ⟨.newBatch 2 parentA 1 false, none⟩, ⟨.putNode 2 (.leaf 1 10), none⟩,
    ⟨.putWriteLog 2 (some sharedLog) (some ⟨⟩), none⟩, ⟨.commit 2 sharedRoot, none⟩,
    ⟨.newBatch 3 parentB 1 false, none⟩, ⟨.putNode 3 (.leaf 1 10), none⟩,
    ⟨.putWriteLog 3 (some sharedLog) (some ⟨⟩), none⟩, ⟨.commit 3 sharedRoot, none⟩]

set_option maxRecDepth 20000 in
/-- After both commits succeed, `R` is in the roots metadata of its version, which is not
below the earliest version, and its log from `A` is served, but `GetWriteLog(B, R)` finds
no log. -/
theorem getWriteLog_misses_second_parent :
    (run (Sys.fresh demoConfig) twoParentTrace).1.all Except.isOk ∧
      (run (Sys.fresh demoConfig) twoParentTrace).2.query (hasRoot sharedRoot) = .ok true ∧
      (run (Sys.fresh demoConfig) twoParentTrace).2.db.meta.earliestVersion ≤ sharedRoot.version ∧
      (run (Sys.fresh demoConfig) twoParentTrace).2.query
        (do let it ← getWriteLog parentA sharedRoot; it.drain) = .ok sharedLog ∧
      (run (Sys.fresh demoConfig) twoParentTrace).2.query (getWriteLog parentB sharedRoot) =
        .error .writeLogNotFound := by
  decide

end Mkvs.Badger
