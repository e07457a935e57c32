import PythonPortfolio.Library.Runs
import PythonPortfolio.Nebula.Index

/-!
# What an index finds after a run

The store and the indexes are updated by separate calls, in any order. An index finds
exactly the nodes that were added while it has existed, each under the value it was
added with. Nodes that were there before are not in it, since `create_index` does not
go through existing data.
-/

namespace PythonPortfolio.Nebula

open Library

variable {ν ω : Type} [DecidableEq ν]

structure ExecutionEngine (ν ω : Type) where
  storage : GraphStorage ν ω
  indexMgr : IndexManager ν

/-- A call on the index manager or on the store; an `add_node` that returns is followed
by `on_node_created`. -/
inductive Event (ν ω : Type) where
  | createIndex (propertyName : String)
  | dropIndex (propertyName : String)
  | graph (c : GraphStorage.Call ν ω)

namespace ExecutionEngine

def perform (e : ExecutionEngine ν ω) : Event ν ω → ExecutionEngine ν ω
  | .createIndex p => { e with indexMgr := e.indexMgr.createIndex p }
  | .dropIndex p => { e with indexMgr := e.indexMgr.dropIndex p }
  | .graph (.addNode labels properties) =>
    match e.storage.addNode labels properties with
    | (.ok node, storage) => ⟨storage, e.indexMgr.onNodeCreated node⟩
    | (.error _, storage) => { e with storage := storage }
  | .graph c => { e with storage := e.storage.call c }

def init (capacityLimit : Int) : ExecutionEngine ν ω := ⟨.init capacityLimit, .init⟩

def machine (ν ω : Type) [DecidableEq ν] (capacityLimit : Int) :
    Machine (ExecutionEngine ν ω) (Event ν ω) where
  start e := e = init capacityLimit
  step e ev := some (e.perform ev)

abbrev Step (ν ω : Type) := Transition (ExecutionEngine ν ω) (Event ν ω)

/-- The node an event adds. -/
def created (t : Step ν ω) : Option (Node ν) :=
  match t.event with
  | .graph (.addNode labels properties) => (t.pre.storage.addNode labels properties).1.toOption
  | _ => none

/-- The node was added when the index on `p` existed, and that index is still there. -/
def Listed (p : String) (trace : List (Step ν ω)) (node : Node ν) : Prop :=
  ∃ before t after, trace = before ++ t :: after ∧ created t = some node ∧
    p ∈ t.pre.indexMgr.indices.keys ∧ ∀ u ∈ after, u.event ≠ .dropIndex p

/-- Every search finds exactly the stored nodes with that value. -/
def Exact (e : ExecutionEngine ν ω) : Prop :=
  ∀ p ∈ e.indexMgr.indices.keys, ∀ v i, i ∈ e.indexMgr.search p v ↔
    ∃ node, e.storage.nodes.get? i = some node ∧ node.properties.get? p = some v

/-! ## One event -/

variable {e : ExecutionEngine ν ω}

omit [DecidableEq ν] in
theorem nodes_addEdge (s : GraphStorage ν ω) (src dst : Int) (type : String) (weight : ω)
    (props : Dict String ν) :
    (s.addEdge src dst type weight props).2.nodes = s.nodes ∧
      (s.addEdge src dst type weight props).2.nodeSeq = s.nodeSeq := by
  rcases s.addEdge_cases src dst type weight props with
    ⟨err, he⟩ | he | ⟨edge, _, _, _, _, _, he⟩
  all_goals
    rw [he]
    exact ⟨rfl, rfl⟩

omit [DecidableEq ν] in
theorem nodes_deleteNode {s : GraphStorage ν ω} (h : s.Consistent) (n : Int) (cascade : Bool) :
    ((s.deleteNode n cascade).2.nodes = s.nodes ∨
      (s.deleteNode n cascade).2.nodes = s.nodes.erase n) ∧
      (s.deleteNode n cascade).2.nodeSeq = s.nodeSeq := by
  rcases GraphStorage.deleteNode_cases h n cascade with
    ⟨err, he⟩ | ⟨s', he, hnodes, _, _, _, hseq, _⟩
  · rw [he]
    exact ⟨Or.inl rfl, rfl⟩
  · rw [he]
    exact ⟨Or.inr hnodes, hseq⟩

/-- An event adds a node under a new id, or it removes at most the node it names. -/
theorem perform_cases (h : e.storage.Consistent) (ev : Event ν ω) :
    (created ⟨e, ev, e.perform ev⟩ = none ∧
      e.storage.nodeSeq ≤ (e.perform ev).storage.nodeSeq ∧
      ((e.perform ev).storage.nodes = e.storage.nodes ∨
        ∃ n cascade, ev = .graph (.deleteNode n cascade) ∧
          (e.perform ev).storage.nodes = e.storage.nodes.erase n) ∧
      ∀ p v i, i ∈ (e.perform ev).indexMgr.search p v ↔
        i ∈ e.indexMgr.search p v ∧ ev ≠ .dropIndex p) ∨
    ∃ node : Node ν, created ⟨e, ev, e.perform ev⟩ = some node ∧
      node.id = (e.perform ev).storage.nodeSeq ∧
      e.storage.nodeSeq < (e.perform ev).storage.nodeSeq ∧
      (e.perform ev).storage.nodes = e.storage.nodes.set node.id node ∧
      (e.perform ev).indexMgr = e.indexMgr.onNodeCreated node ∧ ∀ p, ev ≠ .dropIndex p := by
  have hkept : ∀ {ev : Event ν ω} {m : IndexManager ν}, (∀ p, ev ≠ .dropIndex p) →
      ∀ p v i, i ∈ m.search p v ↔ i ∈ m.search p v ∧ ev ≠ .dropIndex p :=
    fun hev p v i => ⟨fun hi => ⟨hi, hev p⟩, fun hi => hi.1⟩
  cases ev with
  | createIndex q =>
    refine Or.inl ⟨rfl, le_refl _, Or.inl rfl, fun p v i => ?_⟩
    rw [perform, IndexManager.search_createIndex]
    exact hkept (fun p he => by cases he) p v i
  | dropIndex q =>
    refine Or.inl ⟨rfl, le_refl _, Or.inl rfl, fun p v i => ?_⟩
    rw [perform, IndexManager.search_dropIndex]
    by_cases hp : p = q
    · simp [hp]
    · have hq : ¬ q = p := fun he => hp he.symm
      simp [hp, hq]
  | graph c =>
    have hgraph : ∀ p, Event.graph c ≠ .dropIndex p := fun p he => by cases he
    cases c with
    | addNode labels properties =>
      unfold created perform
      dsimp only
      rcases e.storage.addNode_cases labels properties with ⟨err, he⟩ | he | ⟨node, hid, _, he⟩
      · rw [he]
        exact Or.inl ⟨rfl, le_refl _, Or.inl rfl, hkept hgraph⟩
      · rw [he]
        exact Or.inl ⟨rfl, by dsimp only; omega, Or.inl rfl, hkept hgraph⟩
      · rw [he]
        refine Or.inr ⟨node, rfl, hid, by dsimp only; omega, ?_, rfl, hgraph⟩
        rw [hid]
    | addEdge srcId dstId relType weight props =>
      obtain ⟨hnodes, hseq⟩ := nodes_addEdge e.storage srcId dstId relType weight props
      exact Or.inl ⟨rfl, hseq.ge, Or.inl hnodes, hkept hgraph⟩
    | deleteNode n cascade =>
      obtain ⟨hnodes, hseq⟩ := nodes_deleteNode h n cascade
      refine Or.inl ⟨rfl, hseq.ge, ?_, hkept hgraph⟩
      exact hnodes.imp_right fun herase => ⟨n, cascade, rfl, herase⟩

theorem consistent_perform (h : e.storage.Consistent) (ev : Event ν ω) :
    (e.perform ev).storage.Consistent := by
  cases ev with
  | createIndex p => exact h
  | dropIndex p => exact h
  | graph c =>
    have hcall : (e.perform (.graph c)).storage = e.storage.call c := by
      cases c with
      | addNode labels properties =>
        simp only [perform, GraphStorage.call]
        split <;> simp_all
      | addEdge srcId dstId relType weight props => rfl
      | deleteNode n cascade => rfl
    rw [hcall]
    exact GraphStorage.consistent_call h c

omit [DecidableEq ν] in
/-- A new event ends what was listed on the index it drops, and lists the node it adds. -/
theorem listed_concat {p : String} {trace : List (Step ν ω)} {t : Step ν ω} {node : Node ν} :
    Listed p (trace ++ [t]) node ↔
      (Listed p trace node ∧ t.event ≠ .dropIndex p) ∨
        (created t = some node ∧ p ∈ t.pre.indexMgr.indices.keys) := by
  constructor
  · intro hx
    obtain ⟨before, u, after, heq, hu, hp, hafter⟩ := hx
    rcases List.eq_nil_or_concat after with rfl | ⟨after, w, rfl⟩
    · obtain ⟨-, hlast⟩ := List.append_inj' heq rfl
      obtain rfl : t = u := (List.cons.inj hlast).1
      exact Or.inr ⟨hu, hp⟩
    · have heq' : trace ++ [t] = (before ++ u :: after) ++ [w] := by simpa using heq
      obtain ⟨rfl, hlast⟩ := List.append_inj' heq' rfl
      obtain rfl : t = w := (List.cons.inj hlast).1
      exact Or.inl ⟨⟨before, u, after, rfl, hu, hp, fun x hx => hafter x (by simp [hx])⟩,
        hafter t (by simp)⟩
  · intro hx
    rcases hx with ⟨⟨before, u, after, rfl, hu, hp, hafter⟩, ht⟩ | ⟨ht, hp⟩
    · refine ⟨before, u, after ++ [t], by simp, hu, hp, fun x hx => ?_⟩
      rcases List.mem_append.mp hx with hx | hx
      · exact hafter x hx
      · rw [List.mem_singleton.mp hx]
        exact ht
    · exact ⟨trace, t, [], rfl, ht, hp, fun u hu => by cases hu⟩

/-! ## Runs -/

section Run

variable {capacityLimit : Int} {e₀ : ExecutionEngine ν ω} {trace : List (Step ν ω)}

theorem consistent_run (h : (machine ν ω capacityLimit).Run e₀ trace e) :
    e.storage.Consistent := by
  refine h.state_invariant (P := fun e => e.storage.Consistent) ?_ fun e ev e' he hstep => ?_
  · rintro _ rfl
    exact GraphStorage.consistent_init capacityLimit
  · cases hstep
    exact consistent_perform he ev

/-- A search finds the ids of the nodes listed with the value. -/
theorem mem_search_run (h : (machine ν ω capacityLimit).Run e₀ trace e) (p : String) (v : ν)
    (i : Int) : i ∈ e.indexMgr.search p v ↔
      ∃ node, Listed p trace node ∧ node.id = i ∧ node.properties.get? p = some v := by
  induction h with
  | init hstart =>
    cases hstart
    constructor
    · intro hi
      cases hi
    · intro hx
      obtain ⟨node, ⟨before, t, after, heq, -⟩, -⟩ := hx
      simp at heq
  | @next trace e e' ev hrun hstep ih =>
    cases hstep
    rcases perform_cases (consistent_run hrun) ev with
      ⟨hnone, -, -, hsearch⟩ | ⟨node, hnode, -, -, -, hmgr, hev⟩
    · rw [hsearch, ih]
      simp only [listed_concat, hnone]
      constructor
      · intro hx
        obtain ⟨⟨node, hlisted, hid, hv⟩, hev⟩ := hx
        exact ⟨node, Or.inl ⟨hlisted, hev⟩, hid, hv⟩
      · intro hx
        obtain ⟨node, ⟨hlisted, hev⟩ | ⟨hno, -⟩, hid, hv⟩ := hx
        · exact ⟨⟨node, hlisted, hid, hv⟩, hev⟩
        · cases hno
    · rw [hmgr, IndexManager.mem_search_onNodeCreated, ih]
      simp only [listed_concat, hnode]
      constructor
      · intro hx
        rcases hx with ⟨node', hlisted, hid, hv⟩ | ⟨hp, rfl, hv⟩
        · exact ⟨node', Or.inl ⟨hlisted, hev p⟩, hid, hv⟩
        · exact ⟨node, Or.inr ⟨rfl, hp⟩, rfl, hv⟩
      · intro hx
        obtain ⟨node', ⟨hlisted, -⟩ | ⟨hsome, hp⟩, rfl, hv⟩ := hx
        · exact Or.inl ⟨node', hlisted, rfl, hv⟩
        · cases hsome
          exact Or.inr ⟨hp, rfl, hv⟩

/-- A node that was added is the only one under its id, and it is stored as long as no call
has named it for deletion. -/
theorem created_run (h : (machine ν ω capacityLimit).Run e₀ trace e) {t : Step ν ω}
    (ht : t ∈ trace) {node : Node ν} (hnode : created t = some node) :
    node.id ≤ e.storage.nodeSeq ∧
      (∀ node', e.storage.nodes.get? node.id = some node' → node' = node) ∧
      ((∀ u ∈ trace, ∀ cascade, u.event ≠ .graph (.deleteNode node.id cascade)) →
        e.storage.nodes.get? node.id = some node) := by
  induction h with
  | init => cases ht
  | @next trace e e' ev hrun hstep ih =>
    cases hstep
    rcases perform_cases (consistent_run hrun) ev with
      ⟨hnone, hseq, hnodes, -⟩ | ⟨new, hnew, hid, hseq, hnodes, -, -⟩
    · rcases List.mem_append.mp ht with hold | hlast
      swap
      · rw [List.mem_singleton.mp hlast, hnone] at hnode
        cases hnode
      obtain ⟨hle, honly, hstored⟩ := ih hold
      refine ⟨hle.trans hseq, ?_⟩
      rcases hnodes with hnodes | ⟨n, cascade, rfl, hnodes⟩
      · rw [hnodes]
        exact ⟨honly, fun hdel => hstored fun u hu => hdel u (List.mem_append_left _ hu)⟩
      · rw [hnodes, Dict.get?_erase]
        by_cases hn : node.id = n
        · rw [if_pos hn]
          refine ⟨fun node' hsome => (Option.some_ne_none _ hsome.symm).elim, fun hdel => ?_⟩
          have := hdel _ (List.mem_append_right _ (List.mem_singleton_self _)) cascade
          exact absurd (by rw [hn]) this
        · rw [if_neg hn]
          exact ⟨honly, fun hdel => hstored fun u hu => hdel u (List.mem_append_left _ hu)⟩
    · rw [hnodes, Dict.get?_set]
      rcases List.mem_append.mp ht with hold | hlast
      · obtain ⟨hle, honly, hstored⟩ := ih hold
        have hne : ¬ node.id = new.id := by omega
        rw [if_neg hne]
        exact ⟨by omega, honly, fun hdel => hstored fun u hu => hdel u (List.mem_append_left _ hu)⟩
      · rw [List.mem_singleton.mp hlast, hnew] at hnode
        cases hnode
        rw [if_pos rfl]
        exact ⟨le_of_eq hid, fun node' hsome => (Option.some.inj hsome).symm, fun _ => rfl⟩

omit [DecidableEq ν] in
theorem Listed.created {p : String} {node : Node ν} (h : Listed p trace node) :
    ∃ t ∈ trace, ExecutionEngine.created t = some node := by
  obtain ⟨before, t, after, rfl, ht, -⟩ := h
  exact ⟨t, by simp, ht⟩

/-- Of the stored nodes a search finds those with the value that were added while the
index has existed. Every id it finds is that of a node added with the value, and the node
can be fetched with it unless it was named for deletion. -/
theorem search_history (h : (machine ν ω capacityLimit).Run e₀ trace e) (p : String) (v : ν) :
    (∀ i node, e.storage.nodes.get? i = some node →
      (i ∈ e.indexMgr.search p v ↔ node.properties.get? p = some v ∧ Listed p trace node)) ∧
    (∀ i ∈ e.indexMgr.search p v,
      ∃ node, Listed p trace node ∧ node.id = i ∧ node.properties.get? p = some v) ∧
    ∀ i ∈ e.indexMgr.search p v,
      (∀ t ∈ trace, ∀ cascade, t.event ≠ .graph (.deleteNode i cascade)) →
        ∃ node, e.storage.getNode i = .ok node ∧ node.properties.get? p = some v := by
  refine ⟨fun i node hnode => ?_, fun i hi => (mem_search_run h p v i).mp hi, fun i hi hdel => ?_⟩
  · have hid : i = node.id := (consistent_run h).nodeKeyed _ (Dict.get?_eq_some.mp hnode)
    rw [mem_search_run h]
    constructor
    · intro hx
      obtain ⟨node', hlisted, rfl, hv⟩ := hx
      obtain ⟨t, ht, hcreated⟩ := hlisted.created
      obtain rfl := (created_run h ht hcreated).2.1 node hnode
      exact ⟨hv, hlisted⟩
    · intro hx
      obtain ⟨hv, hlisted⟩ := hx
      exact ⟨node, hlisted, hid.symm, hv⟩
  · obtain ⟨node, hlisted, rfl, hv⟩ := (mem_search_run h p v i).mp hi
    obtain ⟨t, ht, hcreated⟩ := hlisted.created
    refine ⟨node, ?_, hv⟩
    rw [GraphStorage.getNode, (created_run h ht hcreated).2.2 hdel]

end Run

/-! ## Before and after `create_index` -/

def alice : Dict String String := Dict.empty.set "name" "Alice"

def addAlice : Event String Unit := .graph (.addNode ["Person"] alice)

theorem search_history_alice : ∃ trace e,
    (machine String Unit 10).Run (init 10) trace e ∧ e.indexMgr.search "name" "Alice" = {2} ∧
      ∃ node, e.storage.getNode 2 = .ok node ∧ node.properties.get? "name" = some "Alice" := by
  have hexec : ∃ trace e, (machine String Unit 10).exec (init 10)
      [addAlice, .createIndex "name", addAlice] = some (trace, e) ∧
      e.indexMgr.search "name" "Alice" = {2} ∧
      trace.map Transition.event = [addAlice, .createIndex "name", addAlice] :=
    ⟨_, _, rfl, rfl, rfl⟩
  obtain ⟨trace, e, hexec, hsearch, hevents⟩ := hexec
  have hstart : (machine String Unit 10).start (init 10) := rfl
  have hrun := Machine.exec_run hstart hexec
  refine ⟨trace, e, hrun, hsearch, ?_⟩
  refine (search_history hrun "name" "Alice").2.2 2 (by rw [hsearch]; decide) ?_
  intro t ht cascade heq
  have hmem : t.event ∈ [addAlice, .createIndex "name", addAlice] :=
    hevents ▸ List.mem_map_of_mem ht
  rw [heq] at hmem
  simp [addAlice] at hmem

/-- `add_node`, then `create_index`: the node is not found. -/
theorem late_index_misses : ¬ ∀ (ν ω : Type) (_ : DecidableEq ν) (capacityLimit : Int)
    (e₀ e : ExecutionEngine ν ω) (trace : List (Step ν ω)),
    (machine ν ω capacityLimit).Run e₀ trace e → e.Exact := by
  intro h
  have hexec : ∃ trace e, (machine String Unit 10).exec (init 10)
      [addAlice, .createIndex "name"] = some (trace, e) ∧
      e.indexMgr.indices.keys = ["name"] ∧ e.indexMgr.search "name" "Alice" = ∅ ∧
      ∃ node, e.storage.nodes.get? 1 = some node ∧ node.properties.get? "name" = some "Alice" :=
    ⟨_, _, rfl, rfl, rfl, _, rfl, rfl⟩
  obtain ⟨trace, e, hexec, hkeys, hsearch, hnode⟩ := hexec
  have hstart : (machine String Unit 10).start (init 10) := rfl
  have hexact := h String Unit _ 10 _ e trace (Machine.exec_run hstart hexec)
  have hmem := (hexact "name" (by rw [hkeys]; exact List.mem_cons_self) "Alice" 1).mpr hnode
  rw [hsearch] at hmem
  cases hmem

end ExecutionEngine

end PythonPortfolio.Nebula
