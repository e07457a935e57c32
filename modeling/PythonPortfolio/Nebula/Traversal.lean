import Mathlib.Algebra.Order.Ring.Rat
import Mathlib.Data.Finset.Insert
import Mathlib.Data.Prod.Lex
import PythonPortfolio.Library.Loop
import PythonPortfolio.Library.PriorityQueue
import PythonPortfolio.Library.Walks
import PythonPortfolio.Nebula.Invariant

/-!
# Traversals

The methods of `GraphTraversal` read a store through `iter_out_edges` only. A
generator is modelled by the list of what it yields when it is run to its end. A
set is a finite set, the deque a list, and the heap of cost and node a priority
queue ordered as Python orders pairs. Weights are rationals. The fuel bounds the
passes of a loop. Annotations are no part of the model: the one of
`find_shortest_path_dijkstra` names `EdgeID`, which the module does not import.
-/

namespace PythonPortfolio.Nebula

open Library

variable {ν ω : Type}

/-- The stored edges as a graph. -/
def GraphStorage.network (graph : GraphStorage ν ω) : Network Int (Edge ν ω) :=
  ⟨Edge.src, Edge.dst, graph.edges.values⟩

theorem GraphStorage.iterOutEdges_none {graph : GraphStorage ν ω} (h : graph.Consistent)
    (n : Int) : graph.iterOutEdges n none = graph.network.out n := h.outgoing.row n

namespace GraphTraversal

structure BfsState where
  visited : Finset Int
  queue : List (Int × Nat)
  yielded : List (Int × Nat)

/-- The body of the loop over the edges out of a node. -/
def enqueue (depth : Nat) (st : BfsState) (edge : Edge ν ω) : BfsState :=
  if edge.dst ∈ st.visited then st
  else { st with
    visited := insert edge.dst st.visited
    queue := st.queue ++ [(edge.dst, depth + 1)] }

def bfsBody (graph : GraphStorage ν ω) (maxDepth : Int) (st : BfsState) :
    Pass BfsState (List (Int × Nat)) :=
  match st.queue with
  | [] => .leave st.yielded
  | (currentId, depth) :: queue =>
    let st := { st with queue := queue, yielded := st.yielded ++ [(currentId, depth)] }
    if (depth : Int) < maxDepth then
      .again ((graph.iterOutEdges currentId none).foldl (enqueue depth) st)
    else .again st

def bfs (graph : GraphStorage ν ω) (startNodeId maxDepth : Int) (fuel : Nat) :
    Option (List (Int × Nat)) :=
  whileLoop (bfsBody graph maxDepth) fuel ⟨{startNodeId}, [(startNodeId, 0)], []⟩

structure DijkstraState (ν : Type) where
  pq : PriorityQueue (ℚ ×ₗ Int)
  costs : Dict Int ℚ
  backtrack : Dict Int (Edge ν ℚ)
  visited : Finset Int

/-- `new_cost < costs.get(v, float('inf'))`. -/
def improves (costs : Dict Int ℚ) (v : Int) (newCost : ℚ) : Bool :=
  (costs.get? v).all fun cost => newCost < cost

def relax (currentCost : ℚ) (st : DijkstraState ν) (edge : Edge ν ℚ) : DijkstraState ν :=
  let v := edge.dst
  let newCost := currentCost + edge.weight
  if improves st.costs v newCost then
    { st with
      costs := st.costs.set v newCost
      backtrack := st.backtrack.set v edge
      pq := st.pq.push (toLex (newCost, v)) }
  else st

/-- The main loop leaves with the predecessors when it pops the target. -/
def dijkstraBody (graph : GraphStorage ν ℚ) (targetId : Int) (st : DijkstraState ν) :
    Pass (DijkstraState ν) (Option (Dict Int (Edge ν ℚ))) :=
  match st.pq.pop? with
  | none => .leave none
  | some (entry, pq) =>
    let (currentCost, u) := ofLex entry
    if u = targetId then .leave (some st.backtrack)
    else if u ∈ st.visited then .again { st with pq := pq }
    else
      .again ((graph.iterOutEdges u none).foldl (relax currentCost)
        { st with pq := pq, visited := insert u st.visited })

/-- The loop that follows the predecessors from `curr`. -/
def rebuildBody (backtrack : Dict Int (Edge ν ℚ)) (startId : Int) :
    Int × List Int → Pass (Int × List Int) (Except StorageError (List Int))
  | (curr, pathEdges) =>
    if curr = startId then .leave (.ok pathEdges.reverse)
    else
      match backtrack.get? curr with
      | none => .leave (.error (.keyError curr))
      | some edge => .again (edge.src, pathEdges ++ [edge.id])

def dijkstraInit (startId : Int) : DijkstraState ν :=
  ⟨.singleton (toLex (0, startId)), Dict.empty.set startId 0, .empty, ∅⟩

def findShortestPathDijkstra (graph : GraphStorage ν ℚ) (startId targetId : Int) (fuel : Nat) :
    Option (Except StorageError (Option (List Int))) :=
  match whileLoop (dijkstraBody graph targetId) fuel (dijkstraInit startId) with
  | none => none
  | some none => some (.ok none)
  | some (some backtrack) =>
    (whileLoop (rebuildBody backtrack startId) fuel (targetId, [])).map fun r => r.map some

end GraphTraversal

end PythonPortfolio.Nebula
