import Mkvs.Badger.Batch
import Mkvs.Badger.Finalize
import Mkvs.Badger.Prune
import Mkvs.Badger.WriteLog

/-!
# The database as a state machine

A client drives the database with calls: the batch operations on numbered batch handles,
`Finalize`, `Prune`, the multipart restore calls, and reopening the store with `New`.
Each call comes with a fault plan for the backing store. A run is a list of calls; the
metadata lock serializes every call that writes, so a run's order is any interleaving of
the clients' calls. Reads (`GetNode`, `HasRoot`, ...) are queries on a state.

`Sys.commits` is ghost state: the successful `Commit`s so far, each with the batch's
old root, mode and updated nodes. Nothing in the database reads it;
`finalize_hides_inherited_node` and `finalize_keeps_parent_of_next_version_child` of
`Mkvs.Proofs.Finalization` use it to state which commits their runs made.
-/

namespace Mkvs.Badger

/-- A client call. -/
inductive Action
  | newBatch (id : Nat) (oldRoot : Root) (version : Nat) (chunk : Bool)
  | putNode (id : Nat) (n : Node)
  | removeNodes (id : Nat) (hs : List Hash)
  | putWriteLog (id : Nat) (writeLog : Option WriteLog) (annotations : Option Annotations)
  | commit (id : Nat) (root : Root)
  | reset (id : Nat)
  | finalize (sched : Sched) (roots : List Root)
  | prune (version : Nat)
  | startMultipartInsert (version : Nat)
  | abortMultipartInsert
  | reopen (cfg : Config)

/-- The operation a call runs. -/
def Action.run : Action → DbM Unit
  | .newBatch id oldRoot version chunk => Badger.newBatch id oldRoot version chunk
  | .putNode id n => Batch.putNode id n
  | .removeNodes id hs => Batch.removeNodes id hs
  | .putWriteLog id wl ann => Batch.putWriteLog id wl ann
  | .commit id root => Batch.commit id root
  | .reset id => Batch.reset id
  | .finalize sched roots => Badger.finalize sched roots
  | .prune version => Badger.prune version
  | .startMultipartInsert version => Badger.startMultipartInsert version
  | .abortMultipartInsert => Badger.abortMultipartInsert
  | .reopen cfg => Badger.new cfg

/-- A call with the fault plan of its backing-store steps. -/
structure Call where
  action : Action
  fault : Option Nat

/-- A successful `Commit`, as the ghost history records it. -/
structure CommitRecord where
  root : Root
  oldRoot : Root
  chunk : Bool
  updatedNodes : List UpdatedNode
deriving DecidableEq, Repr

/-- The state of the system: the database handle (`isOpen` is false after a failed
`New`), the batch handles, and the ghost history of commits. -/
structure Sys where
  db : Db
  isOpen : Bool
  batches : Nat → Batch
  commits : List CommitRecord

/-- The world a call of `s` runs in. -/
def Sys.world (s : Sys) (fault : Option Nat) : World := ⟨s.db, s.batches, fault⟩

/-- Run a query on a state, with no failing backing-store step. -/
def Sys.query {α : Type} (s : Sys) (q : DbM α) : Except Error α :=
  (q.exec (s.world none)).1

/-- Whether the database is open after an action with result `r`. -/
def Action.isOpenAfter (a : Action) (r : Except Error Unit) (isOpen : Bool) : Bool :=
  match a, r with
  | .reopen _, .ok () => true
  | .reopen _, .error _ => false
  | _, _ => isOpen

/-- The ghost history after the call `c` of `s` with result `r`. -/
def commitsAfter (s : Sys) (c : Call) (r : Except Error Unit) : List CommitRecord :=
  match c.action, r with
  | .commit id root, .ok () =>
    s.commits ++ [⟨root, (s.batches id).oldRoot, (s.batches id).chunk, (s.batches id).updatedNodes⟩]
  | _, _ => s.commits

/-- The batch handles a call starts from: reopening closes every handle. -/
def Action.batchesBefore (a : Action) (batches : Nat → Batch) : Nat → Batch :=
  match a with
  | .reopen _ => fun _ => Batch.closed
  | _ => batches

/-- One call. -/
def step (s : Sys) (c : Call) : Except Error Unit × Sys :=
  let out := c.action.run.exec ⟨s.db, c.action.batchesBefore s.batches, c.fault⟩
  (out.1, ⟨out.2.db, c.action.isOpenAfter out.1 s.isOpen, out.2.batches, commitsAfter s c out.1⟩)

/-- A run: every call's result, and the final state. -/
def run (s : Sys) : List Call → List (Except Error Unit) × Sys
  | [] => ([], s)
  | c :: cs => ((step s c).1 :: (run (step s c).2 cs).1, (run (step s c).2 cs).2)

/-- An empty store with no metadata, before the first `New`. -/
def Sys.empty (cfg : Config) : Sys :=
  ⟨⟨cfg.ns, cfg.readOnly, cfg.discardWriteLogs, 0, ⟨0, 0, 0, none, 0⟩, ⟨[]⟩⟩, false,
    fun _ => Batch.closed, []⟩

/-- A freshly created database. -/
def Sys.fresh (cfg : Config) : Sys := (step (Sys.empty cfg) ⟨.reopen cfg, none⟩).2

/-- The versions an action carries are 64-bit, as the code's types make them. -/
def Action.WellFormed : Action → Prop
  | .newBatch _ oldRoot version _ => oldRoot.version < 2 ^ 64 ∧ version < 2 ^ 64
  | .commit _ root => root.version < 2 ^ 64
  | .finalize _ roots => ∀ r ∈ roots, r.version < 2 ^ 64
  | .prune version => version < 2 ^ 64
  | .startMultipartInsert version => version < 2 ^ 64
  | _ => True

/-- The states a run from a freshly created database reaches. Every call but `New` needs
an open database. -/
inductive Reachable (cfg : Config) : Sys → Prop
  | fresh : Reachable cfg (Sys.fresh cfg)
  | step {s : Sys} (c : Call) : Reachable cfg s → c.action.WellFormed →
      (s.isOpen = true ∨ ∃ cfg', c.action = .reopen cfg') → Reachable cfg (step s c).2

end Mkvs.Badger
