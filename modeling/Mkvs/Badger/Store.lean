import Mathlib.Data.List.Basic
import Mkvs.Node

/-!
# The backing store

The database keeps everything in one managed-timestamp key-value store: every write
carries the timestamp it is made at, and a read at timestamp `t` sees, for each key, the
version with the highest timestamp at or below `t` (among versions written at one
timestamp, the last one written). Deletions are versions too. This module fixes the key
formats of the database and models the store as the list of all versions written, newest
first, with read-write transactions (writes buffered until `CommitAt`) and write batches
(writes buffered until `Flush`, which applies them all at once, as the spec's ordering
section promises). The store's garbage collector and `SetDiscardTs` are left out: they
only drop versions that no read of the database can see.
-/

namespace Mkvs

/-- The encoding of a typed hash: the type byte, then the hash. -/
def TypedHash.encode (th : TypedHash) : List Nat := [th.type.toNat, th.hash]

namespace Badger

/-- `dbVersion`. -/
def dbVersion : Nat := 5

/-- `multipartVersionNone`. -/
def multipartVersionNone : Nat := 0

/-- `serializedMetadata`, the database metadata record (declared outside the sources;
its fields are the ones the spec lists). -/
structure Metadata where
  version : Nat
  ns : Nat
  earliestVersion : Nat
  lastFinalizedVersion : Option Nat
  multipartVersion : Nat
deriving DecidableEq, Repr

/-- The key formats, one constructor per tag: `nodeKeyFmt` (0x00), `writeLogKeyFmt`
(0x01: version, new root, old root), `rootsMetadataKeyFmt` (0x02),
`rootUpdatedNodesKeyFmt` (0x03), `metadataKeyFmt` (0x04),
`multipartRestoreNodeLogKeyFmt` (0x05), `rootNodeKeyFmt` (0x06), and the
`migrationMetaKeyFmt` key that `load` checks for. -/
inductive Key
  | node (h : Hash)
  | writeLog (version : Nat) (newRoot oldRoot : TypedHash)
  | rootsMetadata (version : Nat)
  | rootUpdatedNodes (version : Nat) (root : TypedHash)
  | metadata
  | multipartRestoreNodeLog (th : TypedHash)
  | rootNode (th : TypedHash)
  | migrationMeta
deriving DecidableEq, Repr

/-- The encoding of a key, one number per fixed-width field; comparing encodings
lexicographically is comparing the encoded bytes. -/
def Key.encode : Key → List Nat
  | .node h => [0x00, h]
  | .writeLog v n o => [0x01, v] ++ n.encode ++ o.encode
  | .rootsMetadata v => [0x02, v]
  | .rootUpdatedNodes v r => [0x03, v] ++ r.encode
  | .metadata => [0x04]
  | .multipartRestoreNodeLog th => 0x05 :: th.encode
  | .rootNode th => 0x06 :: th.encode
  | .migrationMeta => [0x07]

/-- The prefix `writeLogKeyFmt.Encode(version, newRoot)`: the write logs of `version` that
end in `newRoot`. -/
def writeLogPrefix (version : Nat) (newRoot : TypedHash) : Key → Bool
  | .writeLog v n _ => v == version && n == newRoot
  | _ => false

/-- The prefix `writeLogKeyFmt.Encode(version)`: the write logs of `version`. -/
def writeLogVersionPrefix (version : Nat) : Key → Bool
  | .writeLog v _ _ => v == version
  | _ => false

/-- The prefix `multipartRestoreNodeLogKeyFmt.Encode()`: the multipart restore log. -/
def multipartLogPrefix : Key → Bool
  | .multipartRestoreNodeLog _ => true
  | _ => false

/-- Strict lexicographic order on encodings. -/
def lexLt : List Nat → List Nat → Bool
  | [], _ :: _ => true
  | a :: as, b :: bs => a < b || (a == b && lexLt as bs)
  | _, _ => false

/-- A stored value; each key format has its own. -/
inductive Value
  | node (n : Node)
  | writeLog (log : HashedDBWriteLog)
  | rootsMetadata (roots : List (TypedHash × List TypedHash))
  | updatedNodes (nodes : List UpdatedNode)
  | metadata (m : Metadata)
  | empty
deriving DecidableEq, Repr

/-- One version of a key: its timestamp and its value, `none` for a deletion. -/
structure Entry where
  key : Key
  ts : Nat
  value : Option Value
deriving DecidableEq, Repr

/-- The store: every version written, the newest first. -/
structure Store where
  entries : List Entry
deriving DecidableEq, Repr

/-- One step of `Store.latest`, over the versions from the oldest. -/
def pickLatest (k : Key) (readTs : Nat) (e : Entry) (best : Option (Nat × Option Value)) :
    Option (Nat × Option Value) :=
  if e.key = k ∧ e.ts ≤ readTs ∧ best.all (·.1 ≤ e.ts) then some (e.ts, e.value) else best

/-- The version of `k` a read at `readTs` sees: the highest timestamp at or below
`readTs`, the last written among equal timestamps. -/
def Store.latest (s : Store) (k : Key) (readTs : Nat) : Option (Nat × Option Value) :=
  s.entries.foldr (pickLatest k readTs) none

/-- `Txn.Get` on the store: the visible version's timestamp and value, or `none` for
`ErrKeyNotFound`. -/
def Store.get (s : Store) (k : Key) (readTs : Nat) : Option (Nat × Value) :=
  match s.latest k readTs with
  | some (ts, some v) => some (ts, v)
  | _ => none

/-- Insert a key into a sorted list of distinct keys. -/
def insertKey (k : Key) : List Key → List Key
  | [] => [k]
  | k' :: ks =>
    if k = k' then k' :: ks
    else if lexLt k.encode k'.encode then k :: k' :: ks else k' :: insertKey k ks

/-- A prefix iteration at `readTs`: the keys satisfying `p` that a read at `readTs` finds,
once each and in key order. -/
def Store.scan (s : Store) (p : Key → Bool) (readTs : Nat) : List Key :=
  (s.entries.foldr (fun e ks => if p e.key then insertKey e.key ks else ks) []).filter
    fun k => (s.get k readTs).isSome

/-- A read-write transaction reading at `readTs`, with its pending writes (newest first). -/
structure Txn where
  readTs : Nat
  pending : List (Key × Option Value)
  discarded : Bool
deriving DecidableEq, Repr

/-- `NewTransactionAt`. -/
def Txn.new (readTs : Nat) : Txn := ⟨readTs, [], false⟩

@[simp] theorem Txn.new_readTs (readTs : Nat) : (Txn.new readTs).readTs = readTs := rfl

/-- `WriteBatch`: writes made at their timestamps (newest first), applied at `Flush`. -/
structure WriteBatch where
  commitTs : Nat
  writes : List Entry
  finished : Bool
deriving DecidableEq, Repr

/-- `NewWriteBatchAt`. -/
def WriteBatch.new (commitTs : Nat) : WriteBatch := ⟨commitTs, [], false⟩

/-- `CommitAt`: the pending writes of a transaction become versions at `ts`. -/
def Store.commitAt (s : Store) (tx : Txn) (ts : Nat) : Store :=
  ⟨tx.pending.map (fun w => ⟨w.1, ts, w.2⟩) ++ s.entries⟩

/-- `Flush`: the writes of a batch become versions. -/
def Store.flush (s : Store) (b : WriteBatch) : Store :=
  ⟨b.writes ++ s.entries⟩

/-! ## Reads -/

theorem Store.latest_cons (e : Entry) (es : List Entry) (k : Key) (t : Nat) :
    Store.latest ⟨e :: es⟩ k t = pickLatest k t e (Store.latest ⟨es⟩ k t) := rfl

theorem Store.latest_append (es es' : List Entry) (k : Key) (t : Nat) :
    Store.latest ⟨es ++ es'⟩ k t = es.foldr (pickLatest k t) (Store.latest ⟨es'⟩ k t) :=
  List.foldr_append _ _ _ _

/-- A version of another key, or one above the read timestamp, is not seen. -/
theorem pickLatest_of_not_visible {e : Entry} {k : Key} {t : Nat}
    (h : e.key ≠ k ∨ t < e.ts) (best : Option (Nat × Option Value)) :
    pickLatest k t e best = best := by
  unfold pickLatest
  rw [if_neg]
  rintro ⟨hk, hts, -⟩
  rcases h with h | h
  · exact h hk
  · omega

/-- Versions that a read does not see leave it unchanged. -/
theorem Store.latest_append_of_not_visible {es : List Entry} {k : Key} {t : Nat}
    (h : ∀ e ∈ es, e.key ≠ k ∨ t < e.ts) (s : Store) :
    Store.latest ⟨es ++ s.entries⟩ k t = s.latest k t := by
  rw [Store.latest_append]
  induction es with
  | nil => rfl
  | cons e es ih =>
    rw [List.foldr_cons, ih fun e' he' => h e' (List.mem_cons_of_mem _ he'),
      pickLatest_of_not_visible (h e (List.mem_cons_self _ _))]

theorem Store.get_append_of_not_visible {es : List Entry} {k : Key} {t : Nat}
    (h : ∀ e ∈ es, e.key ≠ k ∨ t < e.ts) (s : Store) :
    Store.get ⟨es ++ s.entries⟩ k t = s.get k t := by
  simp only [Store.get, Store.latest_append_of_not_visible h]

/-- A version is seen by a read only if it was written at or below the read timestamp. -/
theorem Store.latest_le {s : Store} {k : Key} {t ts : Nat} {v : Option Value}
    (h : s.latest k t = some (ts, v)) : ts ≤ t ∧ ⟨k, ts, v⟩ ∈ s.entries := by
  obtain ⟨es⟩ := s
  induction es with
  | nil => simp [Store.latest] at h
  | cons e es ih =>
    rw [Store.latest_cons, pickLatest] at h
    split at h
    · rename_i hv
      obtain ⟨hk, hts, -⟩ := hv
      cases h
      exact ⟨hts, by simp [← hk]⟩
    · exact ⟨(ih h).1, List.mem_cons_of_mem _ (ih h).2⟩

theorem Store.isSome_get {s : Store} {k : Key} {t : Nat} (h : (s.get k t).isSome) :
    ∃ e ∈ s.entries, e.key = k := by
  unfold Store.get at h
  split at h
  · rename_i ts v hl
    exact ⟨_, (Store.latest_le hl).2, rfl⟩
  · simp at h

/-! ## Prefix iteration -/

theorem mem_insertKey {k k' : Key} {ks : List Key} : k' ∈ insertKey k ks ↔ k' = k ∨ k' ∈ ks := by
  induction ks with
  | nil => simp [insertKey]
  | cons k'' ks ih =>
    unfold insertKey
    split
    · subst_vars; simp
    · split <;> simp [ih, or_left_comm]

theorem mem_scanKeys {es : List Entry} {p : Key → Bool} {k : Key} :
    k ∈ es.foldr (fun e ks => if p e.key then insertKey e.key ks else ks) [] ↔
      p k ∧ ∃ e ∈ es, e.key = k := by
  induction es with
  | nil => simp
  | cons e es ih =>
    rw [List.foldr_cons, List.exists_mem_cons_iff]
    split
    · rename_i hp
      rw [mem_insertKey, ih]
      constructor
      · rintro (rfl | ⟨hpk, h⟩)
        · exact ⟨hp, Or.inl rfl⟩
        · exact ⟨hpk, Or.inr h⟩
      · rintro ⟨hpk, rfl | h⟩
        · exact Or.inl rfl
        · exact Or.inr ⟨hpk, h⟩
    · rename_i hp
      rw [ih]
      constructor
      · rintro ⟨hpk, h⟩
        exact ⟨hpk, Or.inr h⟩
      · rintro ⟨hpk, rfl | h⟩
        · exact absurd hpk hp
        · exact ⟨hpk, h⟩

/-- The keys a prefix iteration yields are exactly the keys with the prefix that a read
at the same timestamp finds. -/
theorem Store.mem_scan {s : Store} {p : Key → Bool} {t : Nat} {k : Key} :
    k ∈ s.scan p t ↔ p k ∧ (s.get k t).isSome := by
  simp only [Store.scan, List.mem_filter, mem_scanKeys]
  constructor
  · rintro ⟨⟨hp, -⟩, hs⟩
    exact ⟨hp, hs⟩
  · rintro ⟨hp, hs⟩
    exact ⟨⟨hp, Store.isSome_get hs⟩, hs⟩

end Badger

end Mkvs
