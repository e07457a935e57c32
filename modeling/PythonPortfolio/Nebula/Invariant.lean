import PythonPortfolio.Library.Runs
import PythonPortfolio.Nebula.Storage

/-!
# The representation invariant of the graph store

Both adjacency maps are secondary indexes of the edge map, by source and by
destination. A cascading delete drops one row of each and repairs the other map
edge by edge; a self-loop is in both rows and is gone from the second before that
row is read. The order inside the rows is the order of `_edges`, which is the
order of the ids.
-/

namespace PythonPortfolio.Nebula

open Library

variable {ν ω : Type}

/-- Every edge is stored under its own id. -/
def Keyed (edges : Dict Int (Edge ν ω)) : Prop := ∀ p ∈ edges.items, p.1 = p.2.id

namespace Keyed

variable {edges : Dict Int (Edge ν ω)}

theorem ids (h : Keyed edges) : edges.values.map Edge.id = edges.keys := by
  unfold Dict.values Dict.keys
  rw [List.map_map]
  exact List.map_congr_left fun p hp => (h p hp).symm

theorem ids_nodup (h : Keyed edges) : (edges.values.map Edge.id).Nodup := by
  rw [h.ids]
  exact edges.keys_nodup

theorem eq_of_id (h : Keyed edges) {e f : Edge ν ω} (he : e ∈ edges.values)
    (hf : f ∈ edges.values) (hid : e.id = f.id) : e = f :=
  List.inj_on_of_nodup_map h.ids_nodup he hf hid

theorem mem_keys (h : Keyed edges) {e : Edge ν ω} (he : e ∈ edges.values) : e.id ∈ edges.keys := by
  rw [← h.ids]
  exact List.mem_map_of_mem he

theorem get? (h : Keyed edges) {e : Edge ν ω} : edges.get? e.id = some e ↔ e ∈ edges.values := by
  rw [Dict.get?_eq_some]
  constructor
  · exact fun hp => List.mem_map.mpr ⟨_, hp, rfl⟩
  · intro he
    obtain ⟨p, hp, rfl⟩ := List.mem_map.mp he
    have := h p hp
    rwa [← this]

theorem filter (h : Keyed edges) {edges' : Dict Int (Edge ν ω)} {keep : Int × Edge ν ω → Bool}
    (hi : edges'.items = edges.items.filter keep) : Keyed edges' := by
  intro p hp
  rw [hi] at hp
  exact h p (List.mem_of_mem_filter hp)

theorem values_erase (h : Keyed edges) (i : Int) :
    (edges.erase i).values = edges.values.filter fun e => e.id ≠ i := by
  unfold Dict.values
  rw [Dict.items_erase, List.filter_map]
  congr 1
  refine List.filter_congr fun p hp => ?_
  rw [h p hp]
  rfl

end Keyed

theorem values_of_items {edges edges' : Dict Int (Edge ν ω)} {keep : Edge ν ω → Bool}
    (h : edges'.items = edges.items.filter fun p => keep p.2) :
    edges'.values = edges.values.filter keep := by
  unfold Dict.values
  rw [h, List.filter_map]
  rfl

section Drop

variable {endpoint : Edge ν ω → Int} {edges : Dict Int (Edge ν ω)}
  {adj : Dict Int (List (Edge ν ω))}

/-- Removing one edge from its row follows its removal from the edge map. -/
theorem groups_removeInverseEdgeRef (hk : Keyed edges) (hg : Groups endpoint edges.values adj)
    {e : Edge ν ω} (he : e ∈ edges.values) :
    Groups endpoint (edges.erase e.id).values (removeInverseEdgeRef adj (endpoint e) e) := by
  rw [hk.values_erase]
  have hnodup : ((adj.row (endpoint e)).map Edge.id).Nodup := by
    rw [hg.row]
    exact hk.ids_nodup.sublist (List.filter_sublist.map Edge.id)
  have hempty : adj.get? (endpoint e) ≠ some [] := fun h => hg.row_ne_nil h rfl
  refine hg.discard (fun x hx hid => ?_) (get?_removeInverseEdgeRef hnodup hempty)
  have hid : x.id = e.id := by simpa using hid
  rw [hk.eq_of_id hx he hid]

/-- The loop removes exactly the edges of the row, and finds each of them. -/
theorem dropEdges_ok {row : List (Edge ν ω)} (hk : Keyed edges)
    (hg : Groups endpoint edges.values adj) (hrow : ∀ e ∈ row, e ∈ edges.values)
    (hnodup : (row.map Edge.id).Nodup) :
    ∃ edges' adj', dropEdges endpoint row edges adj = (.ok (), edges', adj') ∧
      edges'.items = edges.items.filter (fun p => p.2.id ∉ row.map Edge.id) ∧
      Groups endpoint edges'.values adj' := by
  induction row generalizing edges adj with
  | nil => exact ⟨edges, adj, rfl, by simp, hg⟩
  | cons e rest ih =>
    have he : e ∈ edges.values := hrow e (by simp)
    obtain ⟨hnew, hnodup⟩ := List.nodup_cons.mp hnodup
    have hkeyed : Keyed (edges.erase e.id) := hk.filter (Dict.items_erase _ _)
    have hrest : ∀ f ∈ rest, f ∈ (edges.erase e.id).values := by
      intro f hf
      rw [hk.values_erase, List.mem_filter]
      refine ⟨hrow f (by simp [hf]), ?_⟩
      have hne : f.id ≠ e.id := fun hid => hnew (List.mem_map.mpr ⟨f, hf, hid⟩)
      simpa using hne
    obtain ⟨edges', adj', hdrop, hitems, hgroups⟩ :=
      ih hkeyed (groups_removeInverseEdgeRef hk hg he) hrest hnodup
    refine ⟨edges', adj', ?_, ?_, hgroups⟩
    · rw [dropEdges, if_pos (Dict.contains_eq_true.mpr (hk.mem_keys he)), hdrop]
    · rw [hitems, Dict.items_erase, List.filter_filter]
      refine List.filter_congr fun p hp => ?_
      rw [hk p hp, List.map_cons]
      simp only [List.mem_cons, not_or, ne_eq, Bool.decide_and, Bool.and_comm]

/-- Popping a whole row and dropping its edges from the other map. -/
theorem dropRow_ok {key : Edge ν ω → Int} {index : Dict Int (List (Edge ν ω))} (hk : Keyed edges)
    (hi : Groups key edges.values index) (hg : Groups endpoint edges.values adj) (n : Int) :
    ∃ edges' adj', dropEdges endpoint (index.row n) edges adj = (.ok (), edges', adj') ∧
      edges'.items = edges.items.filter (fun p => key p.2 ≠ n) ∧
      Groups key edges'.values (index.erase n) ∧ Groups endpoint edges'.values adj' := by
  have hrow : ∀ e ∈ index.row n, e ∈ edges.values := by
    rw [hi.row]
    exact fun e he => List.mem_of_mem_filter he
  have hnodup : ((index.row n).map Edge.id).Nodup := by
    rw [hi.row]
    exact hk.ids_nodup.sublist (List.filter_sublist.map Edge.id)
  obtain ⟨edges', adj', hdrop, hitems, hgroups⟩ := dropEdges_ok hk hg hrow hnodup
  have hmem : ∀ p ∈ edges.items, p.2.id ∈ (index.row n).map Edge.id ↔ key p.2 = n := by
    intro p hp
    have hv : p.2 ∈ edges.values := List.mem_map_of_mem hp
    rw [hi.row, List.mem_map]
    constructor
    · intro hx
      obtain ⟨e, he, hid⟩ := hx
      obtain ⟨hev, hek⟩ := List.mem_filter.mp he
      rw [← hk.eq_of_id hev hv hid]
      simpa using hek
    · exact fun h => ⟨p.2, List.mem_filter.mpr ⟨hv, by simpa using h⟩, rfl⟩
  have hitems' : edges'.items = edges.items.filter fun p => key p.2 ≠ n := by
    rw [hitems]
    exact List.filter_congr fun p hp => by simp only [hmem p hp, ne_eq]
  refine ⟨edges', adj', hdrop, hitems', ?_, hgroups⟩
  have hvalues : edges'.values = edges.values.filter fun e => key e ≠ n := values_of_items hitems'
  rw [hvalues]
  exact hi.erase n

end Drop

namespace GraphStorage

/-- The representation invariant. -/
structure Consistent (s : GraphStorage ν ω) : Prop where
  nodeKeyed : ∀ p ∈ s.nodes.items, p.1 = p.2.id
  nodeBound : ∀ i ∈ s.nodes.keys, i ≤ s.nodeSeq
  keyed : Keyed s.edges
  edgeBound : ∀ i ∈ s.edges.keys, i ≤ s.edgeSeq
  sorted : s.edges.keys.Pairwise (· < ·)
  endpoints : ∀ e ∈ s.edges.values, e.src ∈ s.nodes.keys ∧ e.dst ∈ s.nodes.keys
  outgoing : Groups Edge.src s.edges.values s.outEdges
  incoming : Groups Edge.dst s.edges.values s.inEdges

theorem consistent_init (capacityLimit : Int) :
    (init capacityLimit : GraphStorage ν ω).Consistent where
  nodeKeyed p hp := by cases hp
  nodeBound i hi := by cases hi
  keyed p hp := by cases hp
  edgeBound i hi := by cases hi
  sorted := List.Pairwise.nil
  endpoints e he := by cases he
  outgoing := .empty _
  incoming := .empty _

/-- A cascading delete removes the node and its incident edges, and both indexes
follow. -/
theorem deleteNode_cascade {s : GraphStorage ν ω} (h : s.Consistent) {n : Int}
    (hn : n ∈ s.nodes.keys) :
    ∃ s', s.deleteNode n true = (.ok (), s') ∧ s'.nodes = s.nodes.erase n ∧
      s'.edges.items = s.edges.items.filter (fun p => p.2.src ≠ n ∧ p.2.dst ≠ n) ∧
      Groups Edge.src s'.edges.values s'.outEdges ∧ Groups Edge.dst s'.edges.values s'.inEdges ∧
      s'.nodeSeq = s.nodeSeq ∧ s'.edgeSeq = s.edgeSeq ∧ s'.capacityLimit = s.capacityLimit := by
  have hc : s.nodes.contains n = true := Dict.contains_eq_true.mpr hn
  by_cases hrows : s.outEdges.contains n ∨ s.inEdges.contains n
  · obtain ⟨edges₁, adjIn, hdrop₁, hitems₁, hout₁, hin₁⟩ :=
      dropRow_ok h.keyed h.outgoing h.incoming n
    have hk₁ : Keyed edges₁ := h.keyed.filter hitems₁
    obtain ⟨edges₂, adjOut, hdrop₂, hitems₂, hin₂, hout₂⟩ := dropRow_ok hk₁ hin₁ hout₁ n
    refine ⟨⟨s.nodes.erase n, edges₂, adjOut, adjIn.erase n, s.nodeSeq, s.edgeSeq,
      s.capacityLimit⟩, ?_, rfl, ?_, hout₂, hin₂, rfl, rfl, rfl⟩
    · simp only [deleteNode, hc, hrows, hdrop₁, hdrop₂, not_true_eq_false, if_true, if_false]
    · dsimp only
      rw [hitems₂, hitems₁, List.filter_filter]
      exact List.filter_congr fun p _ => by simp [Bool.and_comm]
  · refine ⟨{ s with nodes := s.nodes.erase n }, ?_, rfl, ?_, h.outgoing, h.incoming, rfl, rfl, rfl⟩
    · simp only [deleteNode, hc, hrows, not_true_eq_false, if_false]
    · rw [not_or, Dict.contains_eq_true, Dict.contains_eq_true, h.outgoing.mem_keys,
        h.incoming.mem_keys] at hrows
      refine (List.filter_eq_self.mpr fun p hp => ?_).symm
      have hv : p.2 ∈ s.edges.values := List.mem_map_of_mem hp
      have hs : p.2.src ≠ n := fun he => hrows.1 ⟨p.2, hv, he⟩
      have hd : p.2.dst ≠ n := fun he => hrows.2 ⟨p.2, hv, he⟩
      simp [hs, hd]

/-- The three outcomes of `add_node`. -/
theorem addNode_cases (s : GraphStorage ν ω) (labels : List String) (props : Dict String ν) :
    (∃ e, s.addNode labels props = (.error e, s)) ∨
    s.addNode labels props = (.error .typeError, { s with nodeSeq := s.nodeSeq + 1 }) ∨
    ∃ node : Node ν, node.id = s.nodeSeq + 1 ∧ s.nodes.size < s.capacityLimit ∧
      s.addNode labels props = (.ok node,
        { s with nodeSeq := s.nodeSeq + 1, nodes := s.nodes.set (s.nodeSeq + 1) node }) := by
  unfold addNode
  split
  · exact Or.inl ⟨_, rfl⟩
  · next hcap =>
    dsimp only
    split
    · exact Or.inr (Or.inl rfl)
    · next node hnode =>
      obtain ⟨_, _, rfl⟩ := Option.map_eq_some_iff.mp hnode
      exact Or.inr (Or.inr ⟨_, rfl, not_le.mp hcap, rfl⟩)

/-- The three outcomes of `add_edge`. -/
theorem addEdge_cases (s : GraphStorage ν ω) (src dst : Int) (type : String) (weight : ω)
    (props : Dict String ν) :
    (∃ e, s.addEdge src dst type weight props = (.error e, s)) ∨
    s.addEdge src dst type weight props = (.error .typeError, { s with edgeSeq := s.edgeSeq + 1 }) ∨
    ∃ edge : Edge ν ω, edge.id = s.edgeSeq + 1 ∧ edge.src = src ∧ edge.dst = dst ∧
      src ∈ s.nodes.keys ∧ dst ∈ s.nodes.keys ∧
      s.addEdge src dst type weight props = (.ok edge,
        { s with
          edgeSeq := s.edgeSeq + 1
          edges := s.edges.set (s.edgeSeq + 1) edge
          outEdges := addToAdjList s.outEdges src edge
          inEdges := addToAdjList s.inEdges dst edge }) := by
  unfold addEdge
  split
  · exact Or.inl ⟨_, rfl⟩
  · next hsrc =>
    split
    · exact Or.inl ⟨_, rfl⟩
    · next hdst =>
      rw [not_not, Dict.contains_eq_true] at hsrc hdst
      dsimp only
      split
      · exact Or.inr (Or.inl rfl)
      · next edge hedge =>
        obtain ⟨_, _, rfl⟩ := Option.map_eq_some_iff.mp hedge
        exact Or.inr (Or.inr ⟨_, rfl, rfl, rfl, hsrc, hdst, rfl⟩)

/-- The outcomes of `delete_node` on a consistent store. -/
theorem deleteNode_cases {s : GraphStorage ν ω} (h : s.Consistent) (n : Int) (cascade : Bool) :
    (∃ e, s.deleteNode n cascade = (.error e, s)) ∨
    ∃ s', s.deleteNode n cascade = (.ok (), s') ∧ s'.nodes = s.nodes.erase n ∧
      s'.edges.items = s.edges.items.filter (fun p => p.2.src ≠ n ∧ p.2.dst ≠ n) ∧
      Groups Edge.src s'.edges.values s'.outEdges ∧ Groups Edge.dst s'.edges.values s'.inEdges ∧
      s'.nodeSeq = s.nodeSeq ∧ s'.edgeSeq = s.edgeSeq ∧ s'.capacityLimit = s.capacityLimit := by
  by_cases hn : n ∈ s.nodes.keys
  · have hc : s.nodes.contains n = true := Dict.contains_eq_true.mpr hn
    by_cases hrefuse : (s.outEdges.contains n ∨ s.inEdges.contains n) ∧ ¬ cascade
    · obtain ⟨hrows, hno⟩ := hrefuse
      refine Or.inl ⟨.isADirectory s!"Node {n} has edges. Use cascade=True.", ?_⟩
      rw [deleteNode, if_neg (not_not.mpr hc), if_pos hrows, if_pos hno]
    · -- without edges the flag does not matter
      have hsame : s.deleteNode n cascade = s.deleteNode n true := by
        unfold deleteNode
        by_cases hrows : s.outEdges.contains n ∨ s.inEdges.contains n
        · have hcas : cascade = true := by
            by_contra hne
            exact hrefuse ⟨hrows, hne⟩
          rw [hcas]
        · simp only [hrows, if_false]
      rw [hsame]
      exact Or.inr (deleteNode_cascade h hn)
  · have hc : ¬ s.nodes.contains n := fun hc => hn (Dict.contains_eq_true.mp hc)
    exact Or.inl ⟨.nodeNotFound s!"Node {n} not found", by rw [deleteNode, if_pos hc]⟩

/-! ## Preservation -/

section Insert

variable {β : Type} {d : Dict Int β} {ident : β → Int} {seq : Int}

/-- The next id is not in use. -/
theorem next_not_mem (hbound : ∀ i ∈ d.keys, i ≤ seq) : seq + 1 ∉ d.keys := fun hmem => by
  have := hbound _ hmem
  omega

theorem bound_succ (hbound : ∀ i ∈ d.keys, i ≤ seq) : ∀ i ∈ d.keys, i ≤ seq + 1 := fun i hi => by
  have := hbound i hi
  omega

theorem keyed_set_next (hkeyed : ∀ p ∈ d.items, p.1 = ident p.2)
    (hbound : ∀ i ∈ d.keys, i ≤ seq) {b : β} (hb : ident b = seq + 1) :
    ∀ p ∈ (d.set (seq + 1) b).items, p.1 = ident p.2 := by
  rw [Dict.items_set_of_not_mem (next_not_mem hbound)]
  intro p hp
  rcases List.mem_append.mp hp with hp | hp
  · exact hkeyed p hp
  · rw [List.mem_singleton.mp hp]
    exact hb.symm

theorem keys_set_next (hbound : ∀ i ∈ d.keys, i ≤ seq) (b : β) :
    (d.set (seq + 1) b).keys = d.keys ++ [seq + 1] := by
  rw [Dict.keys_set, if_neg (next_not_mem hbound)]

theorem bound_set_next (hbound : ∀ i ∈ d.keys, i ≤ seq) (b : β) :
    ∀ i ∈ (d.set (seq + 1) b).keys, i ≤ seq + 1 := by
  rw [keys_set_next hbound]
  intro i hi
  rcases List.mem_append.mp hi with hi | hi
  · exact bound_succ hbound i hi
  · exact (List.mem_singleton.mp hi).le

theorem sorted_set_next (hsorted : d.keys.Pairwise (· < ·)) (hbound : ∀ i ∈ d.keys, i ≤ seq)
    (b : β) : (d.set (seq + 1) b).keys.Pairwise (· < ·) := by
  rw [keys_set_next hbound]
  refine List.pairwise_append.mpr ⟨hsorted, List.pairwise_singleton _ _, fun i hi j hj => ?_⟩
  have := hbound i hi
  rw [List.mem_singleton.mp hj]
  omega

theorem values_set_next (hbound : ∀ i ∈ d.keys, i ≤ seq) (b : β) :
    (d.set (seq + 1) b).values = d.values ++ [b] := by
  rw [Dict.values, Dict.items_set_of_not_mem (next_not_mem hbound), List.map_append]
  rfl

end Insert

theorem consistent_addNode {s : GraphStorage ν ω} (h : s.Consistent) (labels : List String)
    (props : Dict String ν) : (s.addNode labels props).2.Consistent := by
  rcases s.addNode_cases labels props with ⟨e, he⟩ | he | ⟨node, hid, _, he⟩
  · rw [he]
    exact h
  · rw [he]
    exact { h with nodeBound := bound_succ h.nodeBound }
  · rw [he]
    refine { h with
      nodeKeyed := keyed_set_next h.nodeKeyed h.nodeBound hid
      nodeBound := bound_set_next h.nodeBound node
      endpoints := fun e he => ?_ }
    dsimp only
    rw [keys_set_next h.nodeBound]
    exact ⟨List.mem_append_left _ (h.endpoints e he).1,
      List.mem_append_left _ (h.endpoints e he).2⟩

theorem consistent_addEdge {s : GraphStorage ν ω} (h : s.Consistent) (src dst : Int)
    (type : String) (weight : ω) (props : Dict String ν) :
    (s.addEdge src dst type weight props).2.Consistent := by
  rcases s.addEdge_cases src dst type weight props with
    ⟨e, he⟩ | he | ⟨edge, hid, rfl, rfl, hsrc, hdst, he⟩
  · rw [he]
    exact h
  · rw [he]
    exact { h with edgeBound := bound_succ h.edgeBound }
  · have hvalues := values_set_next h.edgeBound edge
    rw [he]
    refine ⟨h.nodeKeyed, h.nodeBound, keyed_set_next h.keyed h.edgeBound hid,
      bound_set_next h.edgeBound edge, sorted_set_next h.sorted h.edgeBound edge, ?_, ?_, ?_⟩
    · intro e he
      dsimp only at he
      rw [hvalues] at he
      rcases mem_concat.mp he with he | rfl
      · exact h.endpoints e he
      · exact ⟨hsrc, hdst⟩
    · dsimp only
      rw [hvalues]
      exact h.outgoing.append (get?_addToAdjList _ _ · edge)
    · dsimp only
      rw [hvalues]
      exact h.incoming.append (get?_addToAdjList _ _ · edge)

theorem consistent_deleteNode {s : GraphStorage ν ω} (h : s.Consistent) (n : Int)
    (cascade : Bool) : (s.deleteNode n cascade).2.Consistent := by
  rcases deleteNode_cases h n cascade with
    ⟨e, he⟩ | ⟨s', he, hnodes, hitems, hout, hin, hnseq, heseq, _⟩
  · rw [he]
    exact h
  · have hkeep : ∀ p ∈ s'.edges.items,
        p ∈ s.edges.items ∧ p.2.src ≠ n ∧ p.2.dst ≠ n := by
      intro p hp
      rw [hitems] at hp
      simpa using List.mem_filter.mp hp
    have hkeys : s'.edges.keys.Sublist s.edges.keys := by
      unfold Dict.keys
      rw [hitems]
      exact List.filter_sublist.map _
    rw [he]
    refine ⟨?_, ?_, h.keyed.filter hitems, ?_, h.sorted.sublist hkeys, ?_, hout, hin⟩
    · intro p hp
      dsimp only at hp
      rw [hnodes, Dict.items_erase] at hp
      exact h.nodeKeyed p (List.mem_of_mem_filter hp)
    · intro i hi
      dsimp only at hi ⊢
      rw [hnodes, Dict.mem_keys_erase] at hi
      rw [hnseq]
      exact h.nodeBound i hi.1
    · intro i hi
      dsimp only at hi ⊢
      rw [heseq]
      exact h.edgeBound i (hkeys.subset hi)
    · intro e hmem
      dsimp only at hmem ⊢
      obtain ⟨p, hp, rfl⟩ := List.mem_map.mp hmem
      obtain ⟨hold, hsrc, hdst⟩ := hkeep p hp
      have hends := h.endpoints p.2 (List.mem_map_of_mem hold)
      rw [hnodes, Dict.mem_keys_erase, Dict.mem_keys_erase]
      exact ⟨⟨hends.1, hsrc⟩, hends.2, hdst⟩

/-! ## Runs -/

inductive Call (ν ω : Type) where
  | addNode (labels : List String) (properties : Dict String ν)
  | addEdge (srcId dstId : Int) (relType : String) (weight : ω) (props : Dict String ν)
  | deleteNode (nodeId : Int) (cascade : Bool)

/-- The state a call leaves, whether it returns or raises. -/
def call (s : GraphStorage ν ω) : Call ν ω → GraphStorage ν ω
  | .addNode labels properties => (s.addNode labels properties).2
  | .addEdge srcId dstId relType weight props => (s.addEdge srcId dstId relType weight props).2
  | .deleteNode nodeId cascade => (s.deleteNode nodeId cascade).2

def machine (ν ω : Type) (capacityLimit : Int) : Machine (GraphStorage ν ω) (Call ν ω) where
  start s := s = init capacityLimit
  step s c := some (s.call c)

abbrev CallStep (ν ω : Type) := Transition (GraphStorage ν ω) (Call ν ω)

/-- The id of the node a call returns. -/
def newNode (t : CallStep ν ω) : Option Int :=
  match t.event with
  | .addNode labels properties => (t.pre.addNode labels properties).1.toOption.map Node.id
  | _ => none

/-- The id of the edge a call returns. -/
def newEdge (t : CallStep ν ω) : Option Int :=
  match t.event with
  | .addEdge srcId dstId relType weight props =>
    (t.pre.addEdge srcId dstId relType weight props).1.toOption.map Edge.id
  | _ => none

theorem consistent_call {s : GraphStorage ν ω} (h : s.Consistent) (c : Call ν ω) :
    (s.call c).Consistent := by
  cases c with
  | addNode labels properties => exact consistent_addNode h labels properties
  | addEdge srcId dstId relType weight props => exact consistent_addEdge h _ _ _ _ _
  | deleteNode nodeId cascade => exact consistent_deleteNode h nodeId cascade

/-- What the other parts of the store may rely on. -/
structure Represents (s : GraphStorage ν ω) : Prop where
  endpoints : ∀ i e, s.edges.get? i = some e → e.src ∈ s.nodes.keys ∧ e.dst ∈ s.nodes.keys
  outgoing : ∀ n e, e ∈ s.outEdges.row n ↔ s.edges.get? e.id = some e ∧ e.src = n
  incoming : ∀ n e, e ∈ s.inEdges.row n ↔ s.edges.get? e.id = some e ∧ e.dst = n
  outSorted : ∀ n, (s.outEdges.row n).Pairwise fun e f => e.id < f.id
  inSorted : ∀ n, (s.inEdges.row n).Pairwise fun e f => e.id < f.id
  outNonempty : ∀ n, s.outEdges.get? n ≠ some []
  inNonempty : ∀ n, s.inEdges.get? n ≠ some []

theorem Consistent.values_sorted {s : GraphStorage ν ω} (h : s.Consistent) :
    s.edges.values.Pairwise fun e f => e.id < f.id := by
  have hids := h.sorted
  rw [← h.keyed.ids, List.pairwise_map] at hids
  exact hids

theorem Consistent.represents {s : GraphStorage ν ω} (h : s.Consistent) : s.Represents where
  endpoints i e he := h.endpoints e (List.mem_map.mpr ⟨_, Dict.get?_eq_some.mp he, rfl⟩)
  outgoing n e := by
    rw [h.outgoing.row, List.mem_filter, decide_eq_true_eq, h.keyed.get?]
  incoming n e := by
    rw [h.incoming.row, List.mem_filter, decide_eq_true_eq, h.keyed.get?]
  outSorted n := by
    rw [h.outgoing.row]
    exact h.values_sorted.sublist List.filter_sublist
  inSorted n := by
    rw [h.incoming.row]
    exact h.values_sorted.sublist List.filter_sublist
  outNonempty n hn := h.outgoing.row_ne_nil hn rfl
  inNonempty n hn := h.incoming.row_ne_nil hn rfl

/-- A call never moves the node counter back, and returns a node only under the
counter's new value. -/
theorem newNode_call {s : GraphStorage ν ω} (h : s.Consistent) (c : Call ν ω) :
    (newNode ⟨s, c, s.call c⟩ = none ∧ s.nodeSeq ≤ (s.call c).nodeSeq) ∨
    (newNode ⟨s, c, s.call c⟩ = some (s.call c).nodeSeq ∧ s.nodeSeq < (s.call c).nodeSeq) := by
  cases c with
  | addNode labels properties =>
    unfold newNode call
    dsimp only
    rcases s.addNode_cases labels properties with ⟨e, he⟩ | he | ⟨node, hid, _, he⟩
    · rw [he]
      exact Or.inl ⟨rfl, le_refl _⟩
    · rw [he]
      exact Or.inl ⟨rfl, by dsimp only; omega⟩
    · rw [he]
      exact Or.inr ⟨congrArg some hid, by dsimp only; omega⟩
  | addEdge srcId dstId relType weight props =>
    unfold newNode call
    dsimp only
    rcases s.addEdge_cases srcId dstId relType weight props with
      ⟨e, he⟩ | he | ⟨_, _, _, _, _, _, he⟩ <;>
    · rw [he]
      exact Or.inl ⟨rfl, le_refl _⟩
  | deleteNode nodeId cascade =>
    unfold newNode call
    dsimp only
    rcases deleteNode_cases h nodeId cascade with ⟨e, he⟩ | ⟨s', he, _, _, _, _, hseq, _⟩
    · rw [he]
      exact Or.inl ⟨rfl, le_refl _⟩
    · rw [he]
      exact Or.inl ⟨rfl, hseq.ge⟩

theorem newEdge_call {s : GraphStorage ν ω} (h : s.Consistent) (c : Call ν ω) :
    (newEdge ⟨s, c, s.call c⟩ = none ∧ s.edgeSeq ≤ (s.call c).edgeSeq) ∨
    (newEdge ⟨s, c, s.call c⟩ = some (s.call c).edgeSeq ∧ s.edgeSeq < (s.call c).edgeSeq) := by
  cases c with
  | addNode labels properties =>
    unfold newEdge call
    dsimp only
    rcases s.addNode_cases labels properties with ⟨e, he⟩ | he | ⟨_, _, _, he⟩ <;>
    · rw [he]
      exact Or.inl ⟨rfl, le_refl _⟩
  | addEdge srcId dstId relType weight props =>
    unfold newEdge call
    dsimp only
    rcases s.addEdge_cases srcId dstId relType weight props with
      ⟨e, he⟩ | he | ⟨edge, hid, _, _, _, _, he⟩
    · rw [he]
      exact Or.inl ⟨rfl, le_refl _⟩
    · rw [he]
      exact Or.inl ⟨rfl, by dsimp only; omega⟩
    · rw [he]
      exact Or.inr ⟨congrArg some hid, by dsimp only; omega⟩
  | deleteNode nodeId cascade =>
    unfold newEdge call
    dsimp only
    rcases deleteNode_cases h nodeId cascade with ⟨e, he⟩ | ⟨s', he, _, _, _, _, _, hseq, _⟩
    · rw [he]
      exact Or.inl ⟨rfl, le_refl _⟩
    · rw [he]
      exact Or.inl ⟨rfl, hseq.ge⟩

/-- The limit stands, and no call makes room beyond it. -/
theorem capacity_call {s : GraphStorage ν ω} (h : s.Consistent) (c : Call ν ω) :
    (s.call c).capacityLimit = s.capacityLimit ∧
      ((s.nodes.size : Int) ≤ s.capacityLimit →
        ((s.call c).nodes.size : Int) ≤ s.capacityLimit) := by
  cases c with
  | addNode labels properties =>
    unfold call
    dsimp only
    rcases s.addNode_cases labels properties with ⟨e, he⟩ | he | ⟨node, _, hcap, he⟩
    · rw [he]
      exact ⟨rfl, id⟩
    · rw [he]
      exact ⟨rfl, id⟩
    · rw [he]
      have hnew : s.nodeSeq + 1 ∉ s.nodes.keys := fun hmem => by
        have := h.nodeBound _ hmem
        omega
      refine ⟨rfl, fun _ => ?_⟩
      dsimp only
      rw [Dict.size_set_of_not_mem hnew]
      omega
  | addEdge srcId dstId relType weight props =>
    unfold call
    dsimp only
    rcases s.addEdge_cases srcId dstId relType weight props with
      ⟨e, he⟩ | he | ⟨_, _, _, _, _, _, he⟩ <;>
    · rw [he]
      exact ⟨rfl, id⟩
  | deleteNode nodeId cascade =>
    unfold call
    dsimp only
    rcases deleteNode_cases h nodeId cascade with ⟨e, he⟩ | ⟨s', he, hn, _, _, _, _, _, hcap⟩
    · rw [he]
      exact ⟨rfl, id⟩
    · rw [he]
      refine ⟨hcap, fun hle => ?_⟩
      have hsize : s'.nodes.size ≤ s.nodes.size := by
        rw [hn]
        exact List.length_filter_le _ _
      dsimp only
      omega

section Run

variable {capacityLimit : Int} {s₀ s : GraphStorage ν ω} {trace : List (CallStep ν ω)}

theorem consistent_run (h : (machine ν ω capacityLimit).Run s₀ trace s) : s.Consistent := by
  refine h.state_invariant ?_ fun s c s' hs hstep => ?_
  · rintro _ rfl
    exact consistent_init capacityLimit
  · cases hstep
    exact consistent_call hs c

theorem size_run (hcap : 0 ≤ capacityLimit) (h : (machine ν ω capacityLimit).Run s₀ trace s) :
    (s.nodes.size : Int) ≤ capacityLimit := by
  have hinv := h.state_invariant
    (P := fun s => s.Consistent ∧ s.capacityLimit = capacityLimit ∧
      (s.nodes.size : Int) ≤ capacityLimit)
    (by
      rintro _ rfl
      exact ⟨consistent_init capacityLimit, rfl, hcap⟩)
    (by
      rintro s c _ ⟨hc, hl, hle⟩ hstep
      cases hstep
      obtain ⟨hl', hle'⟩ := capacity_call hc c
      exact ⟨consistent_call hc c, hl'.trans hl, hl ▸ hle' (hl ▸ hle)⟩)
  exact hinv.2.2

/-- The representation invariant holds after any sequence of calls, and ids are
handed out in strictly increasing order. -/
theorem representation (h : (machine ν ω capacityLimit).Run s₀ trace s) :
    s.Represents ∧ (0 ≤ capacityLimit → (s.nodes.size : Int) ≤ capacityLimit) ∧
      (trace.filterMap newNode).Pairwise (· < ·) ∧ (trace.filterMap newEdge).Pairwise (· < ·) := by
  have hnodes := h.issued_increasing fun _ s c s' hrun hs => by
    cases hs
    exact newNode_call (consistent_run hrun) c
  have hedges := h.issued_increasing fun _ s c s' hrun hs => by
    cases hs
    exact newEdge_call (consistent_run hrun) c
  exact ⟨(consistent_run h).represents, fun hcap => size_run hcap h, hnodes.1, hedges.1⟩

end Run

/-- Two nodes, parallel edges and a self-loop; a refused and a cascading delete; a
call that names a missing node. -/
def sample : List (Call Unit Unit) :=
  [.addNode [] .empty, .addNode [] .empty, .addEdge 1 2 "KNOWS" () .empty,
    .addEdge 1 2 "KNOWS" () .empty, .addEdge 1 1 "KNOWS" () .empty, .addEdge 2 2 "KNOWS" () .empty,
    .deleteNode 1 false, .deleteNode 1 true, .addEdge 1 2 "KNOWS" () .empty]

theorem representation_sample : ∃ trace s,
    (machine Unit Unit 10).Run (init 10) trace s ∧ s.Represents ∧ s.nodes.keys = [2] ∧
      s.edges.keys = [4] ∧ trace.filterMap newNode = [1, 2] ∧
      (trace.filterMap newEdge).Pairwise (· < ·) := by
  have hexec : ∃ trace s, (machine Unit Unit 10).exec (init 10) sample = some (trace, s) ∧
      s.nodes.keys = [2] ∧ s.edges.keys = [4] ∧ trace.filterMap newNode = [1, 2] :=
    ⟨_, _, rfl, rfl, rfl, rfl⟩
  obtain ⟨trace, s, hexec, hnodes, hedges, hnew⟩ := hexec
  have hstart : (machine Unit Unit 10).start (init 10) := rfl
  have hrep := representation (Machine.exec_run hstart hexec)
  exact ⟨trace, s, Machine.exec_run hstart hexec, hrep.1, hnodes, hedges, hnew, hrep.2.2.2⟩

end GraphStorage

end PythonPortfolio.Nebula
