import PythonPortfolio.Nebula.Execution
import PythonPortfolio.Nebula.Tables

/-!
# Queries after any history

The answer to a query depends on how the store came about. Once an index knows a node by
the value, only such nodes are answered with, whether they carry the label or not, and
nodes that were there before the index are left out. An index is not told of deletions,
so one deleted node among those it knows makes every query for the value raise.
-/

namespace PythonPortfolio.Nebula

open Library

variable {ν ω : Type} [DecidableEq ν]

/-- The node was listed by an index under the value that the query asks for. -/
def Query.Lists (lit : TokenValue → ν) (q : Query) (trace : List (ExecutionEngine.Step ν ω))
    (node : Node ν) : Prop :=
  ∃ c ∈ q.condition, ∃ p ∈ PyStr.string? c.property,
    ExecutionEngine.Listed p trace node ∧ node.properties.get? p = some (lit c.literal)

/-- The clause of a query of one variable. -/
def Query.clause (q : Query) : MatchClause :=
  ⟨.str q.varName, (q.label.map TokenValue.str).toList, .empty⟩

namespace ExecutionEngine

variable {e e₀ : ExecutionEngine ν ω} {lit : TokenValue → ν} {q : Query} {capacityLimit : Int}
  {trace : List (Step ν ω)}

omit [DecidableEq ν] in
/-- An id that is not stored makes the whole fetch raise. -/
theorem fetch_missing {ids : List Int} (h : ∃ i ∈ ids, i ∉ e.storage.nodes.keys) :
    ∃ m, e.fetch ids = .error (.storage (.nodeNotFound m)) := by
  induction ids with
  | nil =>
    obtain ⟨i, hi, -⟩ := h
    cases hi
  | cons j ids ih =>
    cases hget : e.storage.nodes.get? j with
    | none =>
      refine ⟨s!"Node {j} does not exist", ?_⟩
      simp only [fetch, GraphStorage.getNode, hget]
    | some node =>
      obtain ⟨i, hi, hmissing⟩ := h
      have hj : j ∈ e.storage.nodes.keys := Dict.get?_isSome.mp (by rw [hget]; rfl)
      rcases List.mem_cons.mp hi with rfl | hi
      · exact absurd hj hmissing
      · obtain ⟨m, hm⟩ := ih ⟨i, hi, hmissing⟩
        refine ⟨m, ?_⟩
        simp only [fetch, GraphStorage.getNode, hget, hm]
        rfl

omit [DecidableEq ν] in
theorem mem_keys (hc : e.storage.Consistent) {i : Int} :
    i ∈ e.storage.nodes.keys ↔ ∃ node ∈ e.storage.nodes.values, node.id = i := by
  rw [← GraphStorage.ids_nodes hc, List.mem_map]

/-- An index finds the nodes that it lists under the value, stored or not. -/
theorem mem_indexHits_run (h : (machine ν ω capacityLimit).Run e₀ trace e) (hq : q.OneVariable)
    {i : Int} : i ∈ e.indexHits lit q.ast q.clause ↔
      ∃ node, q.Lists lit trace node ∧ node.id = i := by
  unfold indexHits Query.ast Query.clause Query.Lists
  cases hcond : q.condition with
  | none => simp
  | some c =>
    have hvar := hq.condition c hcond
    simp only [Option.map_some, hvar, if_true, TokenValue.key?, Option.mem_some_iff]
    cases hp : PyStr.string? c.property with
    | none => simp [hp]
    | some p =>
      dsimp only
      rw [mem_search_run h]
      constructor
      · intro hx
        obtain ⟨node, hlisted, hid, hv⟩ := hx
        exact ⟨node, ⟨c, rfl, p, hp, hlisted, hv⟩, hid⟩
      · intro hx
        obtain ⟨node, ⟨_, rfl, p', hp', hlisted, hv⟩, hid⟩ := hx
        obtain rfl : p = p' := Option.some.inj (hp.symm.trans hp')
        exact ⟨node, hlisted, hid, hv⟩

/-- A listed node that is stored is the stored node with its id. -/
theorem stored_of_lists (h : (machine ν ω capacityLimit).Run e₀ trace e) {node : Node ν}
    (hl : q.Lists lit trace node) {node' : Node ν} (hmem : node' ∈ e.storage.nodes.values)
    (hid : node'.id = node.id) : node' = node := by
  obtain ⟨c, -, p, -, hlisted, -⟩ := hl
  obtain ⟨t, ht, hcreated⟩ := hlisted.created
  exact (created_run h ht hcreated).2.1 node' ((get?_id (consistent_run h)).mpr ⟨hmem, hid⟩)

/-- `execute` on a query of one variable fetches its candidates. -/
theorem execute_fetch (W : WordChars) (order : SetOrder) {text : PyStr}
    (ht : parseQuery W text = some (.ok q.ast)) :
    e.execute lit W order text =
      some (e.fetch (order.list (e.candidates lit q.ast q.clause))) := by
  rw [execute, ht, Option.map_some]
  dsimp only
  have hclauses : q.ast.matchClauses = [q.clause] := rfl
  rw [hclauses, run]
  cases e.fetch (order.list (e.candidates lit q.ast q.clause)) with
  | error err => rfl
  | ok found => exact congrArg (fun l => some (Except.ok l)) (List.append_nil found)

/-- While the listed nodes are stored, a query returns its candidates. -/
theorem execute_stored (h : (machine ν ω capacityLimit).Run e₀ trace e) (hq : q.OneVariable)
    (W : WordChars) (order : SetOrder) {text : PyStr}
    (ht : parseQuery W text = some (.ok q.ast))
    (hstored : ∀ node, q.Lists lit trace node → node.id ∈ e.storage.nodes.keys) :
    ∃ result, e.execute lit W order text = some (.ok result) ∧ (result.map Node.id).Nodup ∧
      ∀ node, node ∈ result ↔ node ∈ e.storage.nodes.values ∧
        node.id ∈ e.candidates lit q.ast q.clause := by
  have hc := consistent_run h
  have hcandidates : ∀ i ∈ order.list (e.candidates lit q.ast q.clause),
      ∃ node ∈ e.storage.nodes.values, node.id = i := by
    intro i hi
    rw [order.mem, candidates] at hi
    split at hi
    · obtain ⟨node, hmem, hid, -⟩ := mem_memoryScan.mp hi
      exact ⟨node, hmem, hid⟩
    · obtain ⟨node, hl, rfl⟩ := (mem_indexHits_run h hq).mp hi
      exact (mem_keys hc).mp (hstored node hl)
  obtain ⟨result, hfetch, hids, hvalues⟩ := fetch_ok hc hcandidates
  rw [execute_fetch W order ht]
  refine ⟨result, congrArg some hfetch, hids ▸ order.nodup _, fun node => ?_⟩
  rw [← order.mem, ← hids]
  constructor
  · exact fun hmem => ⟨hvalues node hmem, List.mem_map_of_mem hmem⟩
  · intro hx
    obtain ⟨hmem, hid⟩ := hx
    obtain ⟨node', hmem', heq⟩ := List.mem_map.mp hid
    obtain rfl := eq_of_id hc (hvalues node' hmem') hmem heq
    exact hmem'

/-- With a hit, the candidates are the listed nodes. -/
theorem mem_candidates_listed (h : (machine ν ω capacityLimit).Run e₀ trace e)
    (hq : q.OneVariable) (hstored : ∀ node, q.Lists lit trace node → node.id ∈ e.storage.nodes.keys)
    (hsome : ∃ node, q.Lists lit trace node) (node : Node ν) :
    node ∈ e.storage.nodes.values ∧ node.id ∈ e.candidates lit q.ast q.clause ↔
      q.Lists lit trace node := by
  obtain ⟨first, hfirst⟩ := hsome
  have hhit := (mem_indexHits_run h hq).mpr ⟨first, hfirst, rfl⟩
  rw [candidates, if_neg (Finset.ne_empty_of_mem hhit), mem_indexHits_run h hq]
  constructor
  · intro hx
    obtain ⟨hmem, node', hl, hid⟩ := hx
    rw [stored_of_lists h hl hmem hid.symm]
    exact hl
  · intro hl
    obtain ⟨node', hmem, hid⟩ := (mem_keys (consistent_run h)).mp (hstored node hl)
    obtain rfl := stored_of_lists h hl hmem hid
    exact ⟨hmem, node', hl, rfl⟩

/-- Without one, they are the nodes that the query asks for. -/
theorem mem_candidates_scanned (h : (machine ν ω capacityLimit).Run e₀ trace e)
    (hq : q.OneVariable) (hnone : ¬ ∃ node, q.Lists lit trace node) (node : Node ν) :
    node ∈ e.storage.nodes.values ∧ node.id ∈ e.candidates lit q.ast q.clause ↔
      node ∈ e.storage.nodes.values ∧ q.Wants lit node := by
  have hempty : e.indexHits lit q.ast q.clause = ∅ := by
    refine Finset.eq_empty_of_forall_notMem fun i hi => hnone ?_
    obtain ⟨node, hl, -⟩ := (mem_indexHits_run h hq).mp hi
    exact ⟨node, hl⟩
  rw [candidates, if_pos hempty, Query.clause, mem_memoryScan]
  refine and_congr_right fun hnode => ⟨fun hx => ?_, fun hwants => ⟨node, hnode, rfl, hwants⟩⟩
  obtain ⟨node', hmem, hid, hwants⟩ := hx
  obtain rfl := eq_of_id (consistent_run h) hnode hmem hid.symm
  exact hwants

/-- What a query is answered with, in terms of the history: it raises exactly if some node
listed under the value is no longer stored; otherwise it returns the nodes listed under
the value, if there are any, and the nodes that it asks for, if there are none. -/
theorem execute_history (h : (machine ν ω capacityLimit).Run e₀ trace e) (hq : q.OneVariable)
    (lit : TokenValue → ν) (W : WordChars) (order : SetOrder) {text : PyStr}
    (ht : parseQuery W text = some (.ok q.ast)) :
    ((∃ m, e.execute lit W order text = some (.error (.storage (.nodeNotFound m)))) ↔
      ∃ node, q.Lists lit trace node ∧ node.id ∉ e.storage.nodes.keys) ∧
    ((∀ node, q.Lists lit trace node → node.id ∈ e.storage.nodes.keys) →
      ∃ result, e.execute lit W order text = some (.ok result) ∧ (result.map Node.id).Nodup ∧
        ((∃ node, q.Lists lit trace node) →
          ∀ node, node ∈ result ↔ q.Lists lit trace node) ∧
        ((¬ ∃ node, q.Lists lit trace node) →
          ∀ node, node ∈ result ↔ node ∈ e.storage.nodes.values ∧ q.Wants lit node)) := by
  refine ⟨⟨fun hx => ?_, fun hx => ?_⟩, fun hstored => ?_⟩
  · obtain ⟨m, hraise⟩ := hx
    by_contra hnone
    push Not at hnone
    obtain ⟨result, hok, -⟩ := execute_stored h hq W order ht hnone
    rw [hok] at hraise
    cases hraise
  · obtain ⟨node, hl, hmissing⟩ := hx
    have hhit : node.id ∈ e.indexHits lit q.ast q.clause :=
      (mem_indexHits_run h hq).mpr ⟨node, hl, rfl⟩
    have hcandidate : node.id ∈ order.list (e.candidates lit q.ast q.clause) := by
      rw [order.mem, candidates, if_neg (Finset.ne_empty_of_mem hhit)]
      exact hhit
    obtain ⟨m, hm⟩ := fetch_missing ⟨_, hcandidate, hmissing⟩
    exact ⟨m, (execute_fetch W order ht).trans (congrArg some hm)⟩
  · obtain ⟨result, hok, hnodup, hmem⟩ := execute_stored h hq W order ht hstored
    exact ⟨result, hok, hnodup,
      fun hsome node => (hmem node).trans (mem_candidates_listed h hq hstored hsome node),
      fun hnone node => (hmem node).trans (mem_candidates_scanned h hq hnone node)⟩

/-- One of two people called Alice is deleted, and no query for the name is answered. -/
theorem execute_history_deleted : ∃ trace e m,
    (machine String Unit 10).Run (init 10) trace e ∧ e.storage.nodes.keys = [2] ∧
      e.execute stringLiteral WordChars.least ascending
        (PyStr.lit "MATCH (p:Person) WHERE p.name = 'Alice' RETURN p") =
          some (.error (.storage (.nodeNotFound m))) := by
  have hexec : ∃ (t₁ t₂ t₃ t₄ : Step String Unit) (e : ExecutionEngine String Unit),
      (machine String Unit 10).exec (init 10)
        [.createIndex "name", addAlice, addAlice, .graph (.deleteNode 1 false)] =
          some ([t₁, t₂, t₃, t₄], e) ∧
      created t₂ = some (aliceNode "Person") ∧ "name" ∈ t₂.pre.indexMgr.indices.keys ∧
      (∀ u ∈ [t₃, t₄], u.event ≠ .dropIndex "name") ∧ e.storage.nodes.keys = [2] :=
    ⟨_, _, _, _, _, rfl, rfl, by decide, by simp [addAlice], rfl⟩
  obtain ⟨t₁, t₂, t₃, t₄, e, hexec, hcreated, hindex, hkept, hkeys⟩ := hexec
  have hstart : (machine String Unit 10).start (init 10) := rfl
  have hrun := Machine.exec_run hstart hexec
  have hlists : people.Lists stringLiteral [t₁, t₂, t₃, t₄] (aliceNode "Person") :=
    ⟨_, rfl, "name", by decide, ⟨[t₁], t₂, [t₃, t₄], rfl, hcreated, hindex, hkept⟩, by decide⟩
  obtain ⟨m, hm⟩ := (execute_history hrun people_oneVariable stringLiteral WordChars.least
    ascending parse_people).1.mpr ⟨_, hlists, by rw [hkeys]; decide⟩
  exact ⟨_, e, m, hrun, hkeys, hm⟩

end ExecutionEngine

end PythonPortfolio.Nebula
