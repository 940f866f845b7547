/-
Module: SotFs.Core.Transaction
Layer: Core
Purpose: Graph-level transactions (sotfs-tx/src/lib.rs). A transaction is a state and a snapshot of the whole
  graph; a closure is what it returns and the graph it leaves. Any number of transactions may be open on one
  graph: a session is the graph with its transactions in the order they began. The source ties no operation
  to a transaction; the session notes for whom each one is performed, which operations the graph carries the
  effects of, and which commits succeeded, and no step of the source depends on these notes.
Trusted boundary: human-reviewed model
Main exports: Gtxn, withTransaction, Session, SessionStep, Sessions
-/
import SotFs.Core.Runs

namespace SotFs

/-- Transaction state. -/
inductive GtxnState where
  | active
  | committed
  | aborted
deriving DecidableEq, Repr

/-- A graph-level transaction. -/
structure Gtxn where
  state : GtxnState
  snapshot : TypeGraph

namespace Gtxn

/-- Begin by snapshotting the current graph. -/
def begin (graph : TypeGraph) : Gtxn := ⟨.active, graph⟩

def commit (txn : Gtxn) : Except GraphError Unit × Gtxn :=
  if txn.state ≠ .active then (.error (.invariantViolation .nonActiveCommit), txn)
  else (.ok (), { txn with state := .committed })

/-- Restore the snapshot, whatever the state. The transaction is consumed. -/
def rollback (txn : Gtxn) (_graph : TypeGraph) : TypeGraph := txn.snapshot

end Gtxn

/-- `with_transaction`: run a closure, then verify the graph it leaves. -/
def withTransaction {T : Type} (f : TypeGraph → Except GraphError T × TypeGraph) (graph : TypeGraph) :
    Except GraphError T × TypeGraph :=
  let txn := Gtxn.begin graph
  match f graph with
  | (.ok result, graph) =>
      match graph.checkInvariants with
      | .error e => (.error e, graph)
      | .ok () => (.ok result, graph)
  | (.error e, graph) => (.error e, txn.rollback graph)

/-! ### Several transactions on one graph -/

/-- An operation that was performed, numbered, with the transaction it was performed for. -/
structure Performed where
  serial : Nat
  owner : Option Nat
  now : Nat → Timestamp
  op : Op

/-- A graph and the transactions opened on it, in the order they began; one that was rolled back is gone.
    The last five fields are notes: the operations whose effects the graph carries, those it carried when
    each transaction began, the transactions whose commit returned Ok, those whose commit had returned Ok when
    each transaction began, and the number of operations so far. -/
structure Session where
  graph : TypeGraph
  txns : List (Option Gtxn)
  effects : List Performed
  began : List (List Performed)
  committed : List Nat
  settled : List (List Nat)
  performed : Nat

namespace Session

def start (graph : TypeGraph) : Session := ⟨graph, [], [], [], [], [], 0⟩

def begin (s : Session) : Session :=
  { s with txns := s.txns ++ [some (Gtxn.begin s.graph)]
           began := s.began ++ [s.effects]
           settled := s.settled ++ [s.committed] }

def perform (s : Session) (owner : Option Nat) (now : Nat → Timestamp) (op : Op) : Session :=
  { s with graph := (op.apply now s.graph).2
           effects := s.effects ++ [⟨s.performed, owner, now, op⟩]
           performed := s.performed + 1 }

def commit (s : Session) (i : Nat) (txn : Gtxn) : Session :=
  { s with txns := s.txns.set i (some txn.commit.2)
           committed := match txn.commit.1 with
             | .ok () => s.committed ++ [i]
             | .error _ => s.committed }

def rollback (s : Session) (i : Nat) (txn : Gtxn) : Session :=
  { s with graph := txn.rollback s.graph
           txns := s.txns.set i none
           effects := s.began.getD i [] }

/-- The graph that a list of operations makes of a first one. -/
def replay (graph : TypeGraph) (ops : List Performed) : TypeGraph :=
  ops.foldl (fun g p => (p.op.apply p.now g).2) graph

end Session

/-- One step of a session; `allowed` is a condition on the rollbacks. -/
inductive SessionStep (allowed : Session → Nat → Prop) (s : Session) : Session → Prop where
  | begin : SessionStep allowed s s.begin
  | perform (owner : Option Nat) (now : Nat → Timestamp) (op : Op)
      (hactive : ∀ i, owner = some i → ∃ txn, s.txns[i]? = some (some txn) ∧ txn.state = .active) :
      SessionStep allowed s (s.perform owner now op)
  | commit (i : Nat) (txn : Gtxn) (hopen : s.txns[i]? = some (some txn)) :
      SessionStep allowed s (s.commit i txn)
  | rollback (i : Nat) (txn : Gtxn) (hopen : s.txns[i]? = some (some txn)) (hallowed : allowed s i) :
      SessionStep allowed s (s.rollback i txn)

/-- Any interleaving of steps. -/
abbrev Sessions (allowed : Session → Nat → Prop) : Session → Session → Prop :=
  Relation.ReflTransGen (SessionStep allowed)

end SotFs
