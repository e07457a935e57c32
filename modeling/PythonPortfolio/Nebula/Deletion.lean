import PythonPortfolio.Nebula.Invariant

/-!
# Deleting a node

`delete_node` looks for the id as a key of the two adjacency maps, not for edges.
On a consistent store the two tests agree, so the call either refuses and changes
nothing or leaves the store without the node and the edges that touch it.
-/

namespace PythonPortfolio.Nebula.GraphStorage

open Library

variable {ν ω : Type} {s s' : GraphStorage ν ω} {n : Int}

/-- Some stored edge starts or ends at the node. -/
def HasEdges (s : GraphStorage ν ω) (n : Int) : Prop :=
  ∃ e ∈ s.edges.values, e.src = n ∨ e.dst = n

/-- `s'` is `s` without the node `n` and its edges; the rows of the other nodes
lose these edges and keep their order. -/
structure Without (n : Int) (s s' : GraphStorage ν ω) : Prop where
  nodes : s'.nodes = s.nodes.erase n
  edges : s'.edges.items = s.edges.items.filter fun p => p.2.src ≠ n ∧ p.2.dst ≠ n
  outgoing : ∀ k, s'.outEdges.get? k =
    if k = n then none else nonempty? ((s.outEdges.row k).filter fun e => e.dst ≠ n)
  incoming : ∀ k, s'.inEdges.get? k =
    if k = n then none else nonempty? ((s.inEdges.row k).filter fun e => e.src ≠ n)
  nodeSeq : s'.nodeSeq = s.nodeSeq
  edgeSeq : s'.edgeSeq = s.edgeSeq
  capacityLimit : s'.capacityLimit = s.capacityLimit

/-- The key test of `delete_node` sees exactly the edges. -/
theorem contains_iff_hasEdges (h : s.Consistent) (n : Int) :
    (s.outEdges.contains n ∨ s.inEdges.contains n) ↔ s.HasEdges n := by
  rw [Dict.contains_eq_true, Dict.contains_eq_true, h.outgoing.mem_keys, h.incoming.mem_keys]
  constructor
  · intro hx
    rcases hx with ⟨e, he, hs⟩ | ⟨e, he, hd⟩
    · exact ⟨e, he, Or.inl hs⟩
    · exact ⟨e, he, Or.inr hd⟩
  · intro hx
    obtain ⟨e, he, hs | hd⟩ := hx
    · exact Or.inl ⟨e, he, hs⟩
    · exact Or.inr ⟨e, he, hd⟩

/-- The rows of an index after the edges at `n` are gone, `far` being the end the
index is not keyed by. -/
theorem row_without {key far : Edge ν ω → Int} {edges edges' : List (Edge ν ω)}
    {index index' : Dict Int (List (Edge ν ω))} (h : Groups key edges index)
    (h' : Groups key edges' index')
    (hkeep : edges' = edges.filter fun e => key e ≠ n ∧ far e ≠ n) (k : Int) :
    index'.get? k =
      if k = n then none else nonempty? ((index.row k).filter fun e => far e ≠ n) := by
  rw [h' k, hkeep, h.row, List.filter_filter, List.filter_filter]
  by_cases hk : k = n
  · rw [if_pos hk, List.filter_eq_nil_iff.mpr]
    · rfl
    · intro e _ hx
      simp only [Bool.and_eq_true, decide_eq_true_eq] at hx
      exact hx.2.1 (hx.1.trans hk)
  · rw [if_neg hk]
    congr 1
    refine List.filter_congr fun e _ => ?_
    by_cases hek : key e = k
    · simp [hek, hk]
    · simp [hek]

/-- The three outcomes of `delete_node`, each with the states it happens in. -/
theorem deleteNode_outcome (h : s.Consistent) (n : Int) (cascade : Bool) :
    (n ∉ s.nodes.keys ∧
      s.deleteNode n cascade = (.error (.nodeNotFound s!"Node {n} not found"), s)) ∨
    (n ∈ s.nodes.keys ∧ cascade = false ∧ s.HasEdges n ∧ s.deleteNode n cascade =
      (.error (.isADirectory s!"Node {n} has edges. Use cascade=True."), s)) ∨
    (n ∈ s.nodes.keys ∧ (cascade = true ∨ ¬ s.HasEdges n) ∧
      ∃ s', s.deleteNode n cascade = (.ok (), s') ∧ Without n s s') := by
  by_cases hn : n ∈ s.nodes.keys
  · have hc : s.nodes.contains n = true := Dict.contains_eq_true.mpr hn
    have hrows := contains_iff_hasEdges h n
    by_cases hrefuse : cascade = false ∧ s.HasEdges n
    · obtain ⟨hno, hedges⟩ := hrefuse
      refine Or.inr (Or.inl ⟨hn, hno, hedges, ?_⟩)
      have hno' : ¬ cascade = true := by simp [hno]
      rw [deleteNode, if_neg (not_not.mpr hc), if_pos (hrows.mpr hedges), if_pos hno']
    · have hgo : cascade = true ∨ ¬ s.HasEdges n := by
        cases cascade with
        | true => exact Or.inl rfl
        | false => exact Or.inr fun hedges => hrefuse ⟨rfl, hedges⟩
      -- without edges the flag does not matter
      have hsame : s.deleteNode n cascade = s.deleteNode n true := by
        rcases hgo with hcas | hnone
        · rw [hcas]
        · have hno : ¬ (s.outEdges.contains n ∨ s.inEdges.contains n) :=
            fun hx => hnone (hrows.mp hx)
          unfold deleteNode
          simp only [hno, if_false]
      obtain ⟨s', hdel, hnodes, hitems, hout, hin, hnseq, heseq, hcap⟩ := deleteNode_cascade h hn
      have hvalues : s'.edges.values = s.edges.values.filter fun e => e.src ≠ n ∧ e.dst ≠ n :=
        values_of_items hitems
      have hvalues' : s'.edges.values = s.edges.values.filter fun e => e.dst ≠ n ∧ e.src ≠ n := by
        rw [hvalues]
        exact List.filter_congr fun e _ => by simp only [and_comm]
      exact Or.inr (Or.inr ⟨hn, hgo, s', hsame.trans hdel, hnodes, hitems,
        row_without h.outgoing hout hvalues, row_without h.incoming hin hvalues',
        hnseq, heseq, hcap⟩)
  · have hc : ¬ s.nodes.contains n = true := fun hc => hn (Dict.contains_eq_true.mp hc)
    exact Or.inl ⟨hn, by rw [deleteNode, if_pos hc]⟩

/-- In every state a run reaches, `delete_node` removes exactly the node and its
edges, or raises one of two exceptions and changes nothing. -/
theorem deleteNode_exact {capacityLimit : Int} {s₀ : GraphStorage ν ω}
    {trace : List (CallStep ν ω)} (h : (machine ν ω capacityLimit).Run s₀ trace s) (n : Int)
    (cascade : Bool) :
    ((∃ m, (s.deleteNode n cascade).1 = .error (.nodeNotFound m)) ↔ n ∉ s.nodes.keys) ∧
    ((∃ m, (s.deleteNode n cascade).1 = .error (.isADirectory m)) ↔
      n ∈ s.nodes.keys ∧ cascade = false ∧ s.HasEdges n) ∧
    (∀ e, (s.deleteNode n cascade).1 = .error e →
      ((∃ m, e = .nodeNotFound m) ∨ ∃ m, e = .isADirectory m) ∧ (s.deleteNode n cascade).2 = s) ∧
    ((s.deleteNode n cascade).1 = .ok () → Without n s (s.deleteNode n cascade).2) := by
  rcases deleteNode_outcome (consistent_run h) n cascade with
    ⟨hn, hdel⟩ | ⟨hn, hno, hedges, hdel⟩ | ⟨hn, hgo, s', hdel, hwithout⟩
  · rw [hdel]
    refine ⟨iff_of_true ⟨_, rfl⟩ hn, by simp [hn], fun e he => ?_, by simp⟩
    cases he
    exact ⟨Or.inl ⟨_, rfl⟩, rfl⟩
  · rw [hdel]
    refine ⟨by simp [hn], iff_of_true ⟨_, rfl⟩ ⟨hn, hno, hedges⟩, fun e he => ?_, by simp⟩
    cases he
    exact ⟨Or.inr ⟨_, rfl⟩, rfl⟩
  · rw [hdel]
    refine ⟨by simp [hn], iff_of_false (by simp) fun hx => ?_, by simp, fun _ => hwithout⟩
    obtain ⟨_, hno, hedges⟩ := hx
    rcases hgo with hcas | hnone
    · rw [hno] at hcas
      cases hcas
    · exact hnone hedges

/-- The store of `sample` before its two deletes: node 1 has a self-loop and two
parallel edges to node 2. -/
theorem deleteNode_exact_sample : ∃ trace s s',
    (machine Unit Unit 10).Run (init 10) trace s ∧
      (s.deleteNode 1 false).2 = s ∧ s.deleteNode 1 true = (.ok (), s') ∧ Without 1 s s' ∧
      s.edges.keys = [1, 2, 3, 4] ∧ s'.edges.keys = [4] := by
  have hexec : ∃ trace s s', (machine Unit Unit 10).exec (init 10) (sample.take 6) =
      some (trace, s) ∧ (∃ m, (s.deleteNode 1 false).1 = .error (.isADirectory m)) ∧
      s.deleteNode 1 true = (.ok (), s') ∧ s.edges.keys = [1, 2, 3, 4] ∧ s'.edges.keys = [4] :=
    ⟨_, _, _, rfl, ⟨_, rfl⟩, rfl, rfl, rfl⟩
  obtain ⟨trace, s, s', hexec, ⟨m, hm⟩, hdel, hkeys, hkeys'⟩ := hexec
  have hrun := Machine.exec_run (M := machine Unit Unit 10) rfl hexec
  have hfalse := deleteNode_exact hrun 1 false
  have htrue := deleteNode_exact hrun 1 true
  have hwithout := htrue.2.2.2 (by rw [hdel])
  rw [hdel] at hwithout
  exact ⟨trace, s, s', hrun, (hfalse.2.2.1 _ hm).2, hdel, hwithout, hkeys, hkeys'⟩

end PythonPortfolio.Nebula.GraphStorage
