import PythonPortfolio.Library.Service
import PythonPortfolio.Nebula.Deletion

/-!
# The graph store as two tables

What a caller may rely on is a table of nodes and a table of edges, both in the order
of their ids: outgoing edges are a selection from the edge table, and a node has edges
when a row of that table names it. `GraphStorage` keeps two adjacency maps in step with
its edges instead of searching them. A caller cannot tell the difference.
-/

namespace PythonPortfolio.Nebula

open Library

variable {ν ω : Type}

/-- The store as a caller sees it. -/
structure PropertyGraph (ν ω : Type) where
  nodes : List (Node ν)
  edges : List (Edge ν ω)
  nodeSeq : Int
  edgeSeq : Int
  capacityLimit : Int

/-- The calls that change the store, and those that read it. -/
inductive Request (ν ω : Type) where
  | call (c : GraphStorage.Call ν ω)
  | getNode (nodeId : Int)
  | iterNodes
  | iterOutEdges (nodeId : Int) (typeFilter : Option String)
  | stats

inductive Reply (ν ω : Type) where
  | node (node : Node ν)
  | edge (edge : Edge ν ω)
  | deleted
  | nodes (nodes : List (Node ν))
  | edges (edges : List (Edge ν ω))
  | text (text : String)
  | raised (e : StorageError)

def Reply.of {α : Type} (returned : α → Reply ν ω) : Except StorageError α → Reply ν ω
  | .ok a => returned a
  | .error e => .raised e

namespace PropertyGraph

def init (capacityLimit : Int) : PropertyGraph ν ω := ⟨[], [], 0, 0, capacityLimit⟩

variable (g : PropertyGraph ν ω)

def Stored (n : Int) : Prop := n ∈ g.nodes.map Node.id

def Touched (n : Int) : Prop := ∃ e ∈ g.edges, e.src = n ∨ e.dst = n

instance (n : Int) : Decidable (g.Stored n) := inferInstanceAs (Decidable (n ∈ g.nodes.map Node.id))

instance (n : Int) : Decidable (g.Touched n) :=
  inferInstanceAs (Decidable (∃ e ∈ g.edges, e.src = n ∨ e.dst = n))

def addNode (labels : List String) (properties : Dict String ν) :
    Except StorageError (Node ν) × PropertyGraph ν ω :=
  if g.nodes.length ≥ g.capacityLimit then
    (.error (.resourceExhausted "Graph capacity exceeded"), g)
  else
    match Node.init (g.nodeSeq + 1) labels properties with
    | none => (.error .typeError, { g with nodeSeq := g.nodeSeq + 1 })
    | some node =>
      (.ok node, { g with nodeSeq := g.nodeSeq + 1, nodes := g.nodes ++ [node] })

def addEdge (srcId dstId : Int) (relType : String) (weight : ω) (props : Dict String ν) :
    Except StorageError (Edge ν ω) × PropertyGraph ν ω :=
  if ¬ g.Stored srcId then (.error (.nodeNotFound s!"Source Node {srcId} missing"), g)
  else if ¬ g.Stored dstId then (.error (.nodeNotFound s!"Target Node {dstId} missing"), g)
  else
    match Edge.init (g.edgeSeq + 1) srcId dstId relType weight props with
    | none => (.error .typeError, { g with edgeSeq := g.edgeSeq + 1 })
    | some edge =>
      (.ok edge, { g with edgeSeq := g.edgeSeq + 1, edges := g.edges ++ [edge] })

def deleteNode (n : Int) (cascade : Bool) : Except StorageError Unit × PropertyGraph ν ω :=
  if ¬ g.Stored n then (.error (.nodeNotFound s!"Node {n} not found"), g)
  else if g.Touched n ∧ ¬ cascade then
    (.error (.isADirectory s!"Node {n} has edges. Use cascade=True."), g)
  else
    (.ok (), { g with
      nodes := g.nodes.filter fun node => node.id ≠ n
      edges := g.edges.filter fun e => e.src ≠ n ∧ e.dst ≠ n })

def getNode (n : Int) : Except StorageError (Node ν) :=
  match g.nodes.find? fun node => node.id = n with
  | some node => .ok node
  | none => .error (.nodeNotFound s!"Node {n} does not exist")

/-- An empty filter is no filter. -/
def iterOutEdges (n : Int) (typeFilter : Option String) : List (Edge ν ω) :=
  g.edges.filter fun e => e.src = n ∧ ∀ t ∈ typeFilter, t ≠ "" → e.type = t

def serve (g : PropertyGraph ν ω) : Request ν ω → Reply ν ω × PropertyGraph ν ω
  | .call (.addNode labels properties) => (g.addNode labels properties).map (.of .node) id
  | .call (.addEdge srcId dstId relType weight props) =>
    (g.addEdge srcId dstId relType weight props).map (.of .edge) id
  | .call (.deleteNode n cascade) => (g.deleteNode n cascade).map (.of fun _ => .deleted) id
  | .getNode n => (.of .node (g.getNode n), g)
  | .iterNodes => (.nodes g.nodes, g)
  | .iterOutEdges n typeFilter => (.edges (g.iterOutEdges n typeFilter), g)
  | .stats => (.text s!"Graph Nodes: {g.nodes.length}, Edges: {g.edges.length}", g)

def service (ν ω : Type) (capacityLimit : Int) :
    Service (PropertyGraph ν ω) (Request ν ω) (Reply ν ω) := ⟨init capacityLimit, serve⟩

end PropertyGraph

namespace GraphStorage

def serve (s : GraphStorage ν ω) : Request ν ω → Reply ν ω × GraphStorage ν ω
  | .call (.addNode labels properties) => (s.addNode labels properties).map (.of .node) id
  | .call (.addEdge srcId dstId relType weight props) =>
    (s.addEdge srcId dstId relType weight props).map (.of .edge) id
  | .call (.deleteNode n cascade) => (s.deleteNode n cascade).map (.of fun _ => .deleted) id
  | .getNode n => (.of .node (s.getNode n), s)
  | .iterNodes => (.nodes s.iterNodes, s)
  | .iterOutEdges n typeFilter => (.edges (s.iterOutEdges n typeFilter), s)
  | .stats => (.text s.stats, s)

def service (ν ω : Type) (capacityLimit : Int) :
    Service (GraphStorage ν ω) (Request ν ω) (Reply ν ω) := ⟨init capacityLimit, serve⟩

/-- The two tables of a store. -/
def tables (s : GraphStorage ν ω) : PropertyGraph ν ω :=
  ⟨s.nodes.values, s.edges.values, s.nodeSeq, s.edgeSeq, s.capacityLimit⟩

/-! ## One request -/

variable {s : GraphStorage ν ω}

theorem ids_nodes (h : s.Consistent) : s.nodes.values.map Node.id = s.nodes.keys := by
  unfold Dict.values Dict.keys
  rw [List.map_map]
  exact List.map_congr_left fun p hp => (h.nodeKeyed p hp).symm

theorem stored_tables (h : s.Consistent) (n : Int) :
    s.tables.Stored n ↔ s.nodes.contains n = true := by
  unfold PropertyGraph.Stored tables
  rw [ids_nodes h, Dict.contains_eq_true]

theorem addNode_tables (h : s.Consistent) (labels : List String) (properties : Dict String ν) :
    s.tables.addNode labels properties = (s.addNode labels properties).map id tables := by
  have hlength : s.nodes.values.length = s.nodes.size := List.length_map _
  unfold PropertyGraph.addNode addNode tables
  dsimp only
  rw [hlength]
  split
  · rfl
  · cases hnode : Node.init (s.nodeSeq + 1) labels properties with
    | none => rfl
    | some node =>
      obtain ⟨_, _, rfl⟩ := Option.map_eq_some_iff.mp hnode
      dsimp only [Prod.map, id]
      rw [values_set_next h.nodeBound]

theorem addEdge_tables (h : s.Consistent) (srcId dstId : Int) (relType : String) (weight : ω)
    (props : Dict String ν) :
    s.tables.addEdge srcId dstId relType weight props =
      (s.addEdge srcId dstId relType weight props).map id tables := by
  unfold PropertyGraph.addEdge addEdge
  simp only [stored_tables h]
  split
  · rfl
  · split
    · rfl
    · unfold tables
      dsimp only
      cases hedge : Edge.init (s.edgeSeq + 1) srcId dstId relType weight props with
      | none => rfl
      | some edge =>
        obtain ⟨_, _, rfl⟩ := Option.map_eq_some_iff.mp hedge
        dsimp only [Prod.map, id]
        rw [values_set_next h.edgeBound]

theorem values_erase_nodes (h : s.Consistent) (n : Int) :
    (s.nodes.erase n).values = s.nodes.values.filter fun node => node.id ≠ n := by
  unfold Dict.values
  rw [Dict.items_erase, List.filter_map]
  congr 1
  refine List.filter_congr fun p hp => ?_
  rw [h.nodeKeyed p hp]
  rfl

theorem deleteNode_tables (h : s.Consistent) (n : Int) (cascade : Bool) :
    s.tables.deleteNode n cascade = (s.deleteNode n cascade).map id tables := by
  have hstored : s.tables.Stored n ↔ n ∈ s.nodes.keys :=
    (stored_tables h n).trans Dict.contains_eq_true
  unfold PropertyGraph.deleteNode
  rcases deleteNode_outcome h n cascade with
    ⟨hn, hdel⟩ | ⟨hn, hno, hedges, hdel⟩ | ⟨hn, hgo, s', hdel, hwithout⟩
  · rw [hdel, if_pos (mt hstored.mp hn)]
    rfl
  · have hrefuse : s.tables.Touched n ∧ ¬ cascade = true := ⟨hedges, by simp [hno]⟩
    rw [hdel, if_neg (not_not.mpr (hstored.mpr hn)), if_pos hrefuse]
    rfl
  · have hgo' : ¬ (s.tables.Touched n ∧ ¬ cascade = true) := fun hx =>
      hgo.elim hx.2 fun hnone => hnone hx.1
    rw [hdel, if_neg (not_not.mpr (hstored.mpr hn)), if_neg hgo']
    have hedges : s'.edges.values = s.edges.values.filter fun e => e.src ≠ n ∧ e.dst ≠ n :=
      values_of_items hwithout.edges
    unfold tables
    dsimp only [Prod.map, id]
    rw [hwithout.nodes, values_erase_nodes h, hedges, hwithout.nodeSeq, hwithout.edgeSeq,
      hwithout.capacityLimit]

theorem lookup_eq_find? {items : List (Int × Node ν)} (h : ∀ p ∈ items, p.1 = p.2.id) (n : Int) :
    items.lookup n = (items.map Prod.snd).find? fun node => node.id = n := by
  induction items with
  | nil => rfl
  | cons p rest ih =>
    obtain ⟨i, node⟩ := p
    obtain rfl : i = node.id := h _ List.mem_cons_self
    rw [Dict.lookup_cons, List.map_cons, List.find?_cons, ih fun q hq => h q (by simp [hq])]
    by_cases hn : n = node.id
    · simp [hn]
    · have hne : ¬ node.id = n := fun he => hn he.symm
      simp [hn, hne]

theorem getNode_tables (h : s.Consistent) (n : Int) : s.tables.getNode n = s.getNode n := by
  have hlookup : (s.tables.nodes.find? fun node => node.id = n) = s.nodes.get? n :=
    (lookup_eq_find? h.nodeKeyed n).symm
  cases hget : s.nodes.get? n with
  | none =>
    rw [hget] at hlookup
    simp only [PropertyGraph.getNode, getNode, hlookup, hget]
  | some node =>
    rw [hget] at hlookup
    simp only [PropertyGraph.getNode, getNode, hlookup, hget]

theorem iterOutEdges_tables (h : s.Consistent) (n : Int) (typeFilter : Option String) :
    s.tables.iterOutEdges n typeFilter = s.iterOutEdges n typeFilter := by
  unfold PropertyGraph.iterOutEdges iterOutEdges tables
  rw [h.outgoing.row]
  cases typeFilter with
  | none => simp
  | some t =>
    by_cases ht : t = ""
    · simp [ht]
    · simp only [ht, if_false, List.filter_filter]
      refine List.filter_congr fun e _ => ?_
      simp [ht, Bool.and_comm]

theorem stats_tables (s : GraphStorage ν ω) :
    s.stats = s!"Graph Nodes: {s.tables.nodes.length}, Edges: {s.tables.edges.length}" := by
  unfold stats tables Dict.size Dict.values
  simp only [List.length_map]

/-- A request to the tables does what it does to the store. -/
theorem serve_tables (h : s.Consistent) (r : Request ν ω) :
    s.tables.serve r = (s.serve r).map id tables := by
  cases r with
  | call c =>
    cases c with
    | addNode labels properties =>
      rw [PropertyGraph.serve, addNode_tables h]
      rfl
    | addEdge srcId dstId relType weight props =>
      rw [PropertyGraph.serve, addEdge_tables h]
      rfl
    | deleteNode n cascade =>
      rw [PropertyGraph.serve, deleteNode_tables h]
      rfl
  | getNode n =>
    rw [PropertyGraph.serve, getNode_tables h]
    rfl
  | iterNodes => rfl
  | iterOutEdges n typeFilter =>
    rw [PropertyGraph.serve, iterOutEdges_tables h]
    rfl
  | stats =>
    rw [serve, stats_tables]
    rfl

theorem consistent_serve (h : s.Consistent) (r : Request ν ω) : (s.serve r).2.Consistent := by
  cases r with
  | call c =>
    have hc := consistent_call h c
    cases c <;> exact hc
  | getNode n => exact h
  | iterNodes => exact h
  | iterOutEdges n typeFilter => exact h
  | stats => exact h

theorem simulates_tables (ν ω : Type) (capacityLimit : Int) :
    (service ν ω capacityLimit).Simulates (PropertyGraph.service ν ω capacityLimit)
      fun s g => s.Consistent ∧ s.tables = g where
  initial := ⟨consistent_init capacityLimit, rfl⟩
  answer := by
    rintro s _ r ⟨h, rfl⟩
    exact (congrArg Prod.fst (serve_tables h r)).symm
  next := by
    rintro s _ r ⟨h, rfl⟩
    exact ⟨consistent_serve h r, (congrArg Prod.snd (serve_tables h r)).symm⟩

/-- Whatever the calls, and whichever of them raise, the store answers as the two tables
would. -/
theorem replies_tables (capacityLimit : Int) (requests : List (Request ν ω)) :
    (service ν ω capacityLimit).replies requests =
      (PropertyGraph.service ν ω capacityLimit).replies requests :=
  (simulates_tables ν ω capacityLimit).replies requests

end GraphStorage

end PythonPortfolio.Nebula
