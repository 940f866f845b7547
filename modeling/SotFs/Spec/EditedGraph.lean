/-
Module: SotFs.Spec.EditedGraph
Layer: Spec
Purpose: The graph that a history of calls of the treewidth tracker describes, and the runs of the tracker along
  such a history. An edge is there from its addition to its removal or that of an end; a run begins with a new
  tracker or with one of a type graph, and is within the limits, as long as no call hits an assertion.
Trusted boundary: human-reviewed specification
Main exports: EditedGraph, EditedGraph.ofTypeGraph, EditedGraph.edit, EditedGraph.graph, TrackerRun
-/
import SotFs.Core.DynamicTreewidth

namespace SotFs

/-- The nodes and edges that edits have left. -/
structure EditedGraph where
  nodes : Finset Nat
  edges : Finset (Nat × Nat)

namespace EditedGraph

/-- The graph before any edit. -/
def empty : EditedGraph := ⟨∅, ∅⟩

/-- The skeleton of a type graph by its uids. -/
def ofTypeGraph (g : TypeGraph) : EditedGraph :=
  let nodes := g.skeletonNodes
  let edges := (g.edges.iter.map Prod.snd).filterMap fun edge =>
    (nodes.idxOf? edge.srcNode).bind fun su => (nodes.idxOf? edge.tgtNode).map fun tu => (su, tu)
  ⟨Finset.range nodes.length, edges.toFinset⟩

/-- The graph after a call. -/
def edit (g : EditedGraph) : TrackerOp → EditedGraph
  | .addNode n => { g with nodes := insert n g.nodes }
  | .removeNode n => ⟨g.nodes.erase n, g.edges.filter fun e => e.1 ≠ n ∧ e.2 ≠ n⟩
  | .addEdge u v => { g with edges := insert (u, v) g.edges }
  | .removeEdge u v => { g with edges := (g.edges.erase (u, v)).erase (v, u) }
  | .fullRecompute => g

/-- Edges have no direction, and one from a node to itself does not count. -/
def graph (g : EditedGraph) : SimpleGraph Nat where
  Adj a b := a ≠ b ∧ ((a, b) ∈ g.edges ∨ (b, a) ∈ g.edges)
  symm := ⟨fun _ _ h => ⟨h.1.symm, h.2.symm⟩⟩
  loopless := ⟨fun _ h => h.1 rfl⟩

variable {g : EditedGraph} {a b : Nat}

theorem adj_removeNode {n : Nat} :
    (g.edit (.removeNode n)).graph.Adj a b ↔ g.graph.Adj a b ∧ a ≠ n ∧ b ≠ n := by
  change a ≠ b ∧ (_ ∈ g.edges.filter _ ∨ _ ∈ g.edges.filter _) ↔ (a ≠ b ∧ (_ ∨ _)) ∧ _
  rw [Finset.mem_filter, Finset.mem_filter]
  tauto

theorem adj_addEdge {u v : Nat} (hne : u ≠ v) :
    (g.edit (.addEdge u v)).graph.Adj a b ↔ g.graph.Adj a b ∨ (a = u ∧ b = v) ∨ (a = v ∧ b = u) := by
  change a ≠ b ∧ (_ ∈ insert (u, v) g.edges ∨ _ ∈ insert (u, v) g.edges) ↔ (a ≠ b ∧ (_ ∨ _)) ∨ _
  rw [Finset.mem_insert, Finset.mem_insert, Prod.mk.injEq, Prod.mk.injEq]
  constructor
  · tauto
  · rintro (h | ⟨rfl, rfl⟩ | ⟨rfl, rfl⟩)
    · tauto
    · exact ⟨hne, .inl (.inl ⟨rfl, rfl⟩)⟩
    · exact ⟨hne.symm, .inr (.inl ⟨rfl, rfl⟩)⟩

theorem adj_addLoop {u : Nat} : (g.edit (.addEdge u u)).graph.Adj a b ↔ g.graph.Adj a b := by
  change a ≠ b ∧ (_ ∈ insert (u, u) g.edges ∨ _ ∈ insert (u, u) g.edges) ↔ a ≠ b ∧ (_ ∨ _)
  rw [Finset.mem_insert, Finset.mem_insert, Prod.mk.injEq, Prod.mk.injEq]
  grind

theorem adj_removeEdge {u v : Nat} :
    (g.edit (.removeEdge u v)).graph.Adj a b ↔
      g.graph.Adj a b ∧ ¬ (a = u ∧ b = v) ∧ ¬ (a = v ∧ b = u) := by
  change a ≠ b ∧ (_ ∈ (g.edges.erase _).erase _ ∨ _ ∈ (g.edges.erase _).erase _) ↔ (a ≠ b ∧ (_ ∨ _)) ∧ _
  simp only [Finset.mem_erase, ne_eq, Prod.mk.injEq]
  tauto

end EditedGraph

/-- The state after the calls of a list, if `allowed` admits each and no assertion stops them. -/
def TrackerOp.calls (allowed : DynamicTreewidth → TrackerOp → Bool) (t : DynamicTreewidth) :
    List TrackerOp → Option DynamicTreewidth
  | [] => some t
  | op :: ops => if allowed t op then (op.apply t).bind fun t => calls allowed t ops else none

/-- The states of the tracker and the graphs that the calls describe, along every history of calls that no
    assertion stops and that `allowed`, a condition on the state and the call, admits. A tracker of a type graph
    is loaded and then recomputed. -/
inductive TrackerRun (allowed : DynamicTreewidth → TrackerOp → Prop) :
    DynamicTreewidth → EditedGraph → Prop where
  | new : TrackerRun allowed .new .empty
  | fromTypeGraph {t : DynamicTreewidth} {g : TypeGraph} : DynamicTreewidth.new.loadTypeGraph g = some t →
      allowed t .fullRecompute → TrackerRun allowed t.fullRecompute (.ofTypeGraph g)
  | edit {t t' : DynamicTreewidth} {g : EditedGraph} (op : TrackerOp) : TrackerRun allowed t g →
      allowed t op → op.apply t = some t' → TrackerRun allowed t' (g.edit op)

/-- A stronger condition on the calls reaches fewer states. -/
theorem TrackerRun.mono {P Q : DynamicTreewidth → TrackerOp → Prop} (h : ∀ t op, P t op → Q t op)
    {t : DynamicTreewidth} {g : EditedGraph} (hrun : TrackerRun P t g) : TrackerRun Q t g := by
  induction hrun with
  | new => exact .new
  | fromTypeGraph hload hallowed => exact .fromTypeGraph hload (h _ _ hallowed)
  | edit op _ hallowed heq ih => exact .edit op ih (h _ _ hallowed) heq

theorem TrackerRun.calls {allowed : DynamicTreewidth → TrackerOp → Bool} (ops : List TrackerOp) :
    ∀ {t t' : DynamicTreewidth} {g : EditedGraph}, TrackerRun (fun t op => allowed t op = true) t g →
      TrackerOp.calls allowed t ops = some t' →
      TrackerRun (fun t op => allowed t op = true) t' (ops.foldl EditedGraph.edit g) := by
  induction ops with
  | nil =>
      intro t t' g hrun heq
      cases heq
      exact hrun
  | cons op ops ih =>
      intro t t' g hrun heq
      rw [TrackerOp.calls] at heq
      split at heq
      · rename_i hallowed
        obtain ⟨t₁, happly, hrest⟩ := Option.bind_eq_some_iff.mp heq
        exact ih (hrun.edit op hallowed happly) hrest
      · cases heq

end SotFs
