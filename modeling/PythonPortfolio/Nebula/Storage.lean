import Mathlib.Data.Finset.Dedup
import PythonPortfolio.Library.Grouping

/-!
# The Nebula graph store

`GraphStorage` keeps nodes and edges by id and two adjacency maps. An operation
returns its result or the exception it raises, together with the state it leaves,
since an exception does not undo the assignments made before it. `Edge` defines
no `__eq__`, so `list.remove` compares object identity; every edge of a storage
is created under its own id, which stands for the identity here.
-/

namespace PythonPortfolio.Nebula

open Library

inductive StorageError where
  | nodeNotFound (message : String)
  | isADirectory (message : String)
  | resourceExhausted (message : String)
  | keyError (key : Int)
  | typeError
deriving DecidableEq

structure Node (ν : Type) where
  id : Int
  labels : Finset String
  properties : Dict String ν

structure Edge (ν ω : Type) where
  id : Int
  src : Int
  dst : Int
  type : String
  weight : ω
  properties : Dict String ν

variable {ν ω : Type}

/-- Passing a keyword that names a parameter already bound raises `TypeError`. -/
def bindKeywords (parameters : List String) (kwargs : Dict String ν) : Option (Dict String ν) :=
  if kwargs.keys.any fun k => k ∈ parameters then none else some kwargs

def Node.init (nodeId : Int) (labels : List String) (kwargs : Dict String ν) :
    Option (Node ν) :=
  (bindKeywords ["self", "node_id", "labels"] kwargs).map fun properties =>
    ⟨nodeId, labels.toFinset, properties⟩

def Edge.init (edgeId src dst : Int) (relType : String) (weight : ω) (kwargs : Dict String ν) :
    Option (Edge ν ω) :=
  (bindKeywords ["self", "edge_id", "src", "dst", "rel_type", "weight"] kwargs).map
    fun properties => ⟨edgeId, src, dst, relType, weight, properties⟩

structure GraphStorage (ν ω : Type) where
  nodes : Dict Int (Node ν)
  edges : Dict Int (Edge ν ω)
  outEdges : Dict Int (List (Edge ν ω))
  inEdges : Dict Int (List (Edge ν ω))
  nodeSeq : Int
  edgeSeq : Int
  capacityLimit : Int

def addToAdjList (adj : Dict Int (List (Edge ν ω))) (key : Int) (edge : Edge ν ω) :
    Dict Int (List (Edge ν ω)) :=
  let adj := if adj.contains key then adj else adj.set key []
  adj.set key (adj.row key ++ [edge])

def removeInverseEdgeRef (adj : Dict Int (List (Edge ν ω))) (key : Int) (edge : Edge ν ω) :
    Dict Int (List (Edge ν ω)) :=
  match adj.get? key with
  | none => adj
  | some row =>
    if row.any fun e => e.id = edge.id then
      match row.eraseP fun e => e.id = edge.id with
      | [] => adj.erase key
      | rest => adj.set key rest
    else adj

/-- The two loops of `delete_node`: the edges of a popped row leave the inverse
map, where `endpoint` is the end that map is keyed by, and then `_edges`. -/
def dropEdges (endpoint : Edge ν ω → Int) : List (Edge ν ω) → Dict Int (Edge ν ω) →
    Dict Int (List (Edge ν ω)) →
    Except StorageError Unit × Dict Int (Edge ν ω) × Dict Int (List (Edge ν ω))
  | [], edges, adj => (.ok (), edges, adj)
  | edge :: rest, edges, adj =>
    let adj := removeInverseEdgeRef adj (endpoint edge) edge
    if edges.contains edge.id then dropEdges endpoint rest (edges.erase edge.id) adj
    else (.error (.keyError edge.id), edges, adj)

namespace GraphStorage

def init (capacityLimit : Int) : GraphStorage ν ω :=
  ⟨.empty, .empty, .empty, .empty, 0, 0, capacityLimit⟩

def addNode (s : GraphStorage ν ω) (labels : List String) (properties : Dict String ν) :
    Except StorageError (Node ν) × GraphStorage ν ω :=
  if s.nodes.size ≥ s.capacityLimit then
    (.error (.resourceExhausted "Graph capacity exceeded"), s)
  else
    let s := { s with nodeSeq := s.nodeSeq + 1 }
    match Node.init s.nodeSeq labels properties with
    | none => (.error .typeError, s)
    | some node => (.ok node, { s with nodes := s.nodes.set node.id node })

def getNode (s : GraphStorage ν ω) (nodeId : Int) : Except StorageError (Node ν) :=
  match s.nodes.get? nodeId with
  | some node => .ok node
  | none => .error (.nodeNotFound s!"Node {nodeId} does not exist")

def deleteNode (s : GraphStorage ν ω) (nodeId : Int) (cascade : Bool) :
    Except StorageError Unit × GraphStorage ν ω :=
  if ¬ s.nodes.contains nodeId then
    (.error (.nodeNotFound s!"Node {nodeId} not found"), s)
  else if s.outEdges.contains nodeId ∨ s.inEdges.contains nodeId then
    if ¬ cascade then
      (.error (.isADirectory s!"Node {nodeId} has edges. Use cascade=True."), s)
    else
      let outRow := s.outEdges.row nodeId
      let s := { s with outEdges := s.outEdges.erase nodeId }
      match dropEdges Edge.dst outRow s.edges s.inEdges with
      | (.error e, edges, inEdges) => (.error e, { s with edges := edges, inEdges := inEdges })
      | (.ok (), edges, inEdges) =>
        let inRow := inEdges.row nodeId
        let s := { s with edges := edges, inEdges := inEdges.erase nodeId }
        match dropEdges Edge.src inRow s.edges s.outEdges with
        | (.error e, edges, outEdges) => (.error e, { s with edges := edges, outEdges := outEdges })
        | (.ok (), edges, outEdges) =>
          (.ok (), { s with edges := edges, outEdges := outEdges, nodes := s.nodes.erase nodeId })
  else (.ok (), { s with nodes := s.nodes.erase nodeId })

def addEdge (s : GraphStorage ν ω) (srcId dstId : Int) (relType : String) (weight : ω)
    (props : Dict String ν) : Except StorageError (Edge ν ω) × GraphStorage ν ω :=
  if ¬ s.nodes.contains srcId then
    (.error (.nodeNotFound s!"Source Node {srcId} missing"), s)
  else if ¬ s.nodes.contains dstId then
    (.error (.nodeNotFound s!"Target Node {dstId} missing"), s)
  else
    let s := { s with edgeSeq := s.edgeSeq + 1 }
    match Edge.init s.edgeSeq srcId dstId relType weight props with
    | none => (.error .typeError, s)
    | some edge =>
      (.ok edge, { s with
        edges := s.edges.set edge.id edge
        outEdges := addToAdjList s.outEdges srcId edge
        inEdges := addToAdjList s.inEdges dstId edge })

def iterOutEdges (s : GraphStorage ν ω) (nodeId : Int) (typeFilter : Option String) :
    List (Edge ν ω) :=
  match typeFilter with
  | none => s.outEdges.row nodeId
  | some t => if t = "" then s.outEdges.row nodeId
    else (s.outEdges.row nodeId).filter fun e => e.type = t

def iterNodes (s : GraphStorage ν ω) : List (Node ν) := s.nodes.values

def stats (s : GraphStorage ν ω) : String :=
  s!"Graph Nodes: {s.nodes.size}, Edges: {s.edges.size}"

end GraphStorage

/-! ## What the two adjacency operations do to a lookup -/

theorem get?_addToAdjList (adj : Dict Int (List (Edge ν ω))) (key k : Int) (edge : Edge ν ω) :
    (addToAdjList adj key edge).get? k =
      if k = key then some (adj.row key ++ [edge]) else adj.get? k := by
  unfold addToAdjList
  by_cases hc : adj.contains key
  · simp only [hc, if_true, Dict.get?_set]
  · have hnone : adj.get? key = none :=
      Dict.get?_eq_none.mpr fun h => hc (Dict.contains_eq_true.mpr h)
    by_cases hk : k = key
    · simp [hc, Dict.row, hnone, hk]
    · simp [hc, hk]

/-- In a row without repeated ids, removing the first match removes all of them. -/
theorem eraseP_id {row : List (Edge ν ω)} (h : (row.map Edge.id).Nodup) (i : Int) :
    (row.eraseP fun e => e.id = i) = row.filter fun e => e.id ≠ i := by
  induction row with
  | nil => rfl
  | cons e rest ih =>
    obtain ⟨hnew, hrest⟩ := List.nodup_cons.mp h
    by_cases he : e.id = i
    · rw [List.eraseP_cons_of_pos (by simpa using he), List.filter_cons_of_neg (by simpa using he)]
      refine (List.filter_eq_self.mpr fun f hf => ?_).symm
      have hne : f.id ≠ i := fun hfi => hnew (List.mem_map.mpr ⟨f, hf, hfi.trans he.symm⟩)
      simpa using hne
    · rw [List.eraseP_cons_of_neg (by simpa using he), List.filter_cons_of_pos (by simpa using he),
        ih hrest]

theorem get?_removeInverseEdgeRef {adj : Dict Int (List (Edge ν ω))} {key : Int}
    {edge : Edge ν ω} (hnodup : ((adj.row key).map Edge.id).Nodup)
    (hempty : adj.get? key ≠ some []) (k : Int) :
    (removeInverseEdgeRef adj key edge).get? k =
      if k = key then nonempty? ((adj.row key).filter fun e => e.id ≠ edge.id)
      else adj.get? k := by
  unfold removeInverseEdgeRef
  cases hrow : adj.get? key with
  | none =>
    by_cases hk : k = key
    · simp [hk, hrow, Dict.row, nonempty?]
    · simp [hk]
  | some row =>
    have hadj : adj.row key = row := by rw [Dict.row, hrow, Option.getD_some]
    rw [hadj] at hnodup ⊢
    dsimp only
    split
    · rw [eraseP_id hnodup]
      cases hrest : row.filter fun e => e.id ≠ edge.id with
      | nil => simp [nonempty?]
      | cons e rest => simp [nonempty?]
    · next hany =>
      have hall : (row.filter fun e => e.id ≠ edge.id) = row :=
        List.filter_eq_self.mpr (by simpa using hany)
      by_cases hk : k = key
      · rw [if_pos hk, hall, hk, hrow]
        exact (nonempty?_of_ne fun he => hempty (he ▸ hrow)).symm
      · rw [if_neg hk]

end PythonPortfolio.Nebula
