import Mathlib.Algebra.Group.Nat.Basic
import Mathlib.Data.Nat.Pairing

/-!
# Roots, nodes and write logs

The types the badger node database shares with the tree layer, from the `node`,
`writelog` and `db/api` packages. None of these packages is in the sources, so each
definition here follows the spec: hashes are natural numbers with `0` for the hash of
the empty tree, and a node's hash is an injective function of its content, the content
addressing the database relies on when it writes the same node twice.
-/

namespace Mkvs

/-- A 32-byte hash; `0` stands for the hash of the empty tree. -/
abbrev Hash := Nat

/-- `hash.Hash.IsEmpty`. -/
def Hash.isEmpty (h : Hash) : Bool := h == 0

/-- `node.RootType`. -/
inductive RootType
  | invalid
  | state
  | io
deriving DecidableEq, Repr

/-- The type byte that starts the encoding of a typed hash. -/
def RootType.toNat : RootType → Nat
  | .invalid => 0
  | .state => 1
  | .io => 2

/-- `api.TypedHash`: the identity of a root in the roots metadata. -/
structure TypedHash where
  type : RootType
  hash : Hash
deriving DecidableEq, Repr

/-- `node.Root`; the namespace is a number. -/
structure Root where
  ns : Nat
  version : Nat
  type : RootType
  hash : Hash
deriving DecidableEq, Repr

/-- `api.TypedHashFromRoot`. -/
def TypedHash.fromRoot (r : Root) : TypedHash := ⟨r.type, r.hash⟩

@[simp] theorem TypedHash.fromRoot_hash (r : Root) : (TypedHash.fromRoot r).hash = r.hash := rfl

/-- Modelled from the spec: `node.Root.Follows` is not in the sources. A new root follows
its old root when both are in one namespace and the old root is empty or not of a later
version (the spec's invariant 6; the lower bound by the earliest version is the separate
`PreviousVersionMismatch` check of `Commit`). -/
def Root.follows (r other : Root) : Bool :=
  r.ns == other.ns && (other.hash.isEmpty || decide (other.version ≤ r.version))

/-- `node.Node`: an internal node with its label and the hashes of its leaf and of its
children (`0` for a nil pointer), or a leaf with its key and value. Keys and values, byte
strings in the code, are numbers here. -/
inductive Node
  | internal (label : Nat) (leafNode left right : Hash)
  | leaf (key value : Nat)
deriving DecidableEq, Repr

/-- `node.Node.GetHash`: injective in the node's content, never the empty hash, and above
the hashes the node points to. -/
def Node.getHash : Node → Hash
  | .internal label leafNode left right =>
      Nat.pair (Nat.pair label leafNode) (Nat.pair left right + 1) + 1
  | .leaf key value => Nat.pair (Nat.pair key value) 0 + 1

/-- The non-nil pointers of a node, in the order a visit follows them. -/
def Node.children : Node → List Hash
  | .internal _ leafNode left right => [leafNode, left, right].filter (! ·.isEmpty)
  | .leaf _ _ => []

theorem Node.getHash_injective : Function.Injective Node.getHash := by
  intro a b h
  cases a <;> cases b <;> simp_all [Node.getHash, Nat.pair_eq_pair]

theorem Node.getHash_ne_zero (n : Node) : n.getHash ≠ 0 := by
  cases n <;> simp [Node.getHash]

/-- A node's hash is above every hash it points to, so a visit that follows pointers
through hash-addressed nodes ends. -/
theorem Node.lt_getHash_of_mem_children {n : Node} {h : ℕ} (hh : h ∈ n.children) :
    h < n.getHash := by
  cases n with
  | leaf => simp [Node.children] at hh
  | internal label leafNode left right =>
    have h1 := Nat.left_le_pair (Nat.pair label leafNode) (Nat.pair left right + 1)
    have h2 := Nat.right_le_pair (Nat.pair label leafNode) (Nat.pair left right + 1)
    have h3 := Nat.right_le_pair label leafNode
    have h4 := Nat.left_le_pair left right
    have h5 := Nat.right_le_pair left right
    simp only [Node.children, List.mem_filter, List.mem_cons, List.mem_singleton,
      List.not_mem_nil, or_false] at hh
    simp only [Node.getHash]
    rcases hh.1 with rfl | rfl | rfl <;> omega

/-- `writelog.LogEntry`: a key and its new value, `none` for a removal. -/
structure LogEntry where
  key : Nat
  value : Option Nat
deriving DecidableEq, Repr

/-- `writelog.WriteLog`. -/
abbrev WriteLog := List LogEntry

/-- `writelog.Annotations`. The database only reads whether they are present: the hashed
write log takes each inserted leaf's hash from the leaf's content. -/
structure Annotations where
deriving DecidableEq, Repr

/-- `api.HashedDBLogEntry`: a key and the hash of the inserted leaf, `none` for a removal. -/
structure HashedDBLogEntry where
  key : Nat
  insertedHash : Option Hash
deriving DecidableEq, Repr

/-- `api.HashedDBWriteLog`. -/
abbrev HashedDBWriteLog := List HashedDBLogEntry

/-- Modelled from the spec: `api.MakeHashedDBWriteLog` is not in the sources. It replaces
every inserted value by the hash of the leaf that holds it. -/
def makeHashedDBWriteLog (writeLog : WriteLog) (_annotations : Annotations) :
    HashedDBWriteLog :=
  writeLog.map fun e => ⟨e.key, e.value.map fun v => (Node.leaf e.key v).getHash⟩

/-- `updatedNode`: a node hash a batch put (`removed = false`) or removed. -/
structure UpdatedNode where
  removed : Bool
  hash : Hash
deriving DecidableEq, Repr

end Mkvs
