import Mathlib.Data.Finset.Sort
import PythonPortfolio.Nebula.IndexHistory
import PythonPortfolio.Nebula.Parser

/-!
# Executing a query

`ExecutionEngine.execute` answers a query by an index seek where the index knows the
value and by a scan of the store otherwise. The scan looks at the labels, the seek does
not, so the two agree only where the nodes with the value carry the label.
The order in which a Python set is walked is a parameter, and so is the way a literal
of a query is a value of a property.
-/

namespace PythonPortfolio.Nebula

open Library

variable {ν ω : Type} [DecidableEq ν]

/-- Some order of the elements of a set. -/
structure SetOrder where
  list : Finset Int → List Int
  nodup : ∀ s, (list s).Nodup
  mem : ∀ s i, i ∈ list s ↔ i ∈ s

inductive ExecuteError where
  | query (e : QueryError)
  | storage (e : StorageError)

/-- The key that a token's value is in a dictionary of strings. -/
def TokenValue.key? : TokenValue → Option String
  | .str s => PyStr.string? s
  | _ => none

namespace ExecutionEngine

variable (e : ExecutionEngine ν ω) (lit : TokenValue → ν)

/-- The label check of the scan. -/
def labelsMatch (clause : MatchClause) (node : Node ν) : Bool :=
  clause.labels = [] ∨ clause.labels.any fun l => l.key?.any fun label => label ∈ node.labels

/-- The filter of the scan. -/
def whereMatch (clause : Option WhereClause) (node : Node ν) : Bool :=
  match clause with
  | none => true
  | some w =>
    if w.operator = .str (PyStr.lit "=") then
      w.propertyName.key?.bind node.properties.get? = some (lit w.value)
    else true

def memoryScan (ast : QueryAST) (clause : MatchClause) : Finset Int :=
  ((e.storage.nodes.values.filter fun node =>
    labelsMatch clause node && whereMatch lit ast.whereClause node).map Node.id).toFinset

def indexHits (ast : QueryAST) (clause : MatchClause) : Finset Int :=
  match ast.whereClause with
  | none => ∅
  | some w =>
    if w.varName = clause.varName then
      match w.propertyName.key? with
      | some p => e.indexMgr.search p (lit w.value)
      | none => ∅
    else ∅

def candidates (ast : QueryAST) (clause : MatchClause) : Finset Int :=
  if e.indexHits lit ast clause = ∅ then e.memoryScan lit ast clause
  else e.indexHits lit ast clause

/-- `get_node` for each id in turn. -/
def fetch : List Int → Except ExecuteError (List (Node ν))
  | [] => .ok []
  | i :: ids =>
    match e.storage.getNode i with
    | .error err => .error (.storage err)
    | .ok node => (fetch ids).map (node :: ·)

def run (order : SetOrder) (ast : QueryAST) : List MatchClause → Except ExecuteError (List (Node ν))
  | [] => .ok []
  | clause :: clauses => do
    let found ← e.fetch (order.list (e.candidates lit ast clause))
    let later ← run order ast clauses
    return found ++ later

/-- `execute`; `none` when the lexer does not end. -/
def execute (W : WordChars) (order : SetOrder) (text : PyStr) :
    Option (Except ExecuteError (List (Node ν))) :=
  (parseQuery W text).map fun parsed =>
    match parsed with
    | .error err => .error (.query err)
    | .ok ast => e.run lit order ast ast.matchClauses

end ExecutionEngine

/-! ## What a query asks for -/

/-- `MATCH (x) ... WHERE x. ... RETURN x`. -/
structure Query.OneVariable (q : Query) : Prop where
  condition : ∀ c ∈ q.condition, c.varName = q.varName
  returned : q.returned = q.varName

def Carries (label : PyStr) (node : Node ν) : Prop := ∃ l ∈ PyStr.string? label, l ∈ node.labels

def Condition.Holds (lit : TokenValue → ν) (c : Condition) (node : Node ν) : Prop :=
  ∃ p ∈ PyStr.string? c.property, node.properties.get? p = some (lit c.literal)

def Query.Wants (lit : TokenValue → ν) (q : Query) (node : Node ν) : Prop :=
  (∀ label ∈ q.label, Carries label node) ∧ ∀ c ∈ q.condition, c.Holds lit node

namespace ExecutionEngine

variable (e : ExecutionEngine ν ω) (lit : TokenValue → ν) (q : Query)

/-- The stored nodes that the query asks for, each once. -/
structure Answers (result : List (Node ν)) : Prop where
  once : (result.map Node.id).Nodup
  mem : ∀ node, node ∈ result ↔ node ∈ e.storage.nodes.values ∧ q.Wants lit node

/-- The nodes with the value carry the label, where the property has an index. -/
def LabelFollows : Prop :=
  ∀ label ∈ q.label, ∀ c ∈ q.condition, ∀ p ∈ PyStr.string? c.property,
    p ∈ e.indexMgr.indices.keys → ∀ node ∈ e.storage.nodes.values,
      node.properties.get? p = some (lit c.literal) → Carries label node

/-- An index knows the node by the value. -/
def Hit (node : Node ν) : Prop :=
  ∃ c ∈ q.condition, ∃ p ∈ PyStr.string? c.property, p ∈ e.indexMgr.indices.keys ∧
    node.properties.get? p = some (lit c.literal)

variable {e lit q}

omit [DecidableEq ν] in
theorem get?_id (hc : e.storage.Consistent) {i : Int} {node : Node ν} :
    e.storage.nodes.get? i = some node ↔ node ∈ e.storage.nodes.values ∧ node.id = i := by
  rw [Dict.get?_eq_some]
  constructor
  · intro h
    exact ⟨List.mem_map.mpr ⟨_, h, rfl⟩, (hc.nodeKeyed _ h).symm⟩
  · intro hx
    obtain ⟨h, rfl⟩ := hx
    obtain ⟨⟨i, node'⟩, hmem, rfl⟩ := List.mem_map.mp h
    have hi : i = node'.id := hc.nodeKeyed _ hmem
    rw [← hi]
    exact hmem

omit [DecidableEq ν] in
theorem eq_of_id (hc : e.storage.Consistent) {node node' : Node ν}
    (h : node ∈ e.storage.nodes.values) (h' : node' ∈ e.storage.nodes.values)
    (hid : node.id = node'.id) : node = node' := by
  have hget := (get?_id hc).mpr ⟨h, hid⟩
  rw [(get?_id hc).mpr ⟨h', rfl⟩] at hget
  exact (Option.some.inj hget).symm

omit [DecidableEq ν] in
theorem labelsMatch_iff {node : Node ν} :
    labelsMatch ⟨.str q.varName, (q.label.map TokenValue.str).toList, .empty⟩ node = true ↔
      ∀ label ∈ q.label, Carries label node := by
  unfold labelsMatch Carries
  cases q.label with
  | none => simp
  | some label => simp [TokenValue.key?, Option.any_eq_true]

theorem whereMatch_iff {node : Node ν} :
    whereMatch lit q.ast.whereClause node = true ↔ ∀ c ∈ q.condition, c.Holds lit node := by
  unfold whereMatch Query.ast Condition.Holds
  cases q.condition with
  | none => simp
  | some c => simp [TokenValue.key?, Option.bind_eq_some_iff]

theorem mem_memoryScan {i : Int} :
    i ∈ e.memoryScan lit q.ast ⟨.str q.varName, (q.label.map TokenValue.str).toList, .empty⟩ ↔
      ∃ node ∈ e.storage.nodes.values, node.id = i ∧ q.Wants lit node := by
  simp only [memoryScan, List.mem_toFinset, List.mem_map, List.mem_filter, Bool.and_eq_true,
    labelsMatch_iff, whereMatch_iff, Query.Wants]
  constructor
  · intro hx
    obtain ⟨node, ⟨hmem, hwants⟩, hid⟩ := hx
    exact ⟨node, hmem, hid, hwants⟩
  · intro hx
    obtain ⟨node, hmem, hid, hwants⟩ := hx
    exact ⟨node, ⟨hmem, hwants⟩, hid⟩

theorem mem_indexHits (hc : e.storage.Consistent) (he : e.Exact) (hq : q.OneVariable) {i : Int} :
    i ∈ e.indexHits lit q.ast ⟨.str q.varName, (q.label.map TokenValue.str).toList, .empty⟩ ↔
      ∃ node ∈ e.storage.nodes.values, node.id = i ∧ e.Hit lit q node := by
  unfold indexHits Query.ast Hit
  cases hcond : q.condition with
  | none => simp
  | some c =>
    have hvar := hq.condition c hcond
    simp only [Option.map_some, hvar, if_true, TokenValue.key?, Option.mem_some_iff]
    cases hp : PyStr.string? c.property with
    | none => simp [hp]
    | some p =>
      dsimp only
      by_cases hkey : p ∈ e.indexMgr.indices.keys
      · rw [he p hkey]
        simp only [get?_id hc]
        constructor
        · intro hx
          obtain ⟨node, ⟨hmem, hid⟩, hv⟩ := hx
          exact ⟨node, hmem, hid, c, rfl, p, hp, hkey, hv⟩
        · intro hx
          obtain ⟨node, hmem, hid, _, rfl, p', hp', -, hv⟩ := hx
          obtain rfl : p = p' := Option.some.inj (hp.symm.trans hp')
          exact ⟨node, ⟨hmem, hid⟩, hv⟩
      · rw [IndexManager.search_of_not_mem hkey]
        constructor
        · intro hi
          cases hi
        · intro hx
          obtain ⟨node, hmem, hid, _, rfl, p', hp', hkey', -⟩ := hx
          obtain rfl : p = p' := Option.some.inj (hp.symm.trans hp')
          exact absurd hkey' hkey

omit [DecidableEq ν] in
/-- Fetching ids of stored nodes gives these nodes in order. -/
theorem fetch_ok (hc : e.storage.Consistent) {ids : List Int}
    (h : ∀ i ∈ ids, ∃ node ∈ e.storage.nodes.values, node.id = i) :
    ∃ result, e.fetch ids = .ok result ∧ result.map Node.id = ids ∧
      ∀ node ∈ result, node ∈ e.storage.nodes.values := by
  induction ids with
  | nil => exact ⟨[], rfl, rfl, nofun⟩
  | cons i ids ih =>
    obtain ⟨result, hresult, hids, hmem⟩ := ih fun j hj => h j (List.mem_cons_of_mem _ hj)
    obtain ⟨node, hnode, hid⟩ := h i List.mem_cons_self
    have hget : e.storage.getNode i = .ok node := by
      rw [GraphStorage.getNode, (get?_id hc).mpr ⟨hnode, hid⟩]
    refine ⟨node :: result, ?_, by rw [List.map_cons, hids, hid], ?_⟩
    · simp only [fetch, hget, hresult]
      rfl
    · exact List.forall_mem_cons.mpr ⟨hnode, hmem⟩

/-- The answer to a query of one variable: the stored nodes whose ids are candidates. -/
theorem execute_candidates (lit : TokenValue → ν) (hc : e.storage.Consistent) (he : e.Exact)
    (hq : q.OneVariable) (W : WordChars) (order : SetOrder) {text : PyStr}
    (ht : parseQuery W text = some (.ok q.ast)) :
    ∃ result, e.execute lit W order text = some (.ok result) ∧ (result.map Node.id).Nodup ∧
      ∀ node, node ∈ result ↔ node ∈ e.storage.nodes.values ∧
        node.id ∈ e.candidates lit q.ast
          ⟨.str q.varName, (q.label.map TokenValue.str).toList, .empty⟩ := by
  generalize hclause : (⟨.str q.varName, (q.label.map TokenValue.str).toList, .empty⟩ :
    MatchClause) = clause
  have hstored : ∀ i ∈ order.list (e.candidates lit q.ast clause),
      ∃ node ∈ e.storage.nodes.values, node.id = i := by
    intro i hi
    rw [order.mem, candidates, ← hclause] at hi
    split at hi
    · obtain ⟨node, hmem, hid, -⟩ := mem_memoryScan.mp hi
      exact ⟨node, hmem, hid⟩
    · obtain ⟨node, hmem, hid, -⟩ := (mem_indexHits hc he hq).mp hi
      exact ⟨node, hmem, hid⟩
  obtain ⟨result, hfetch, hids, hvalues⟩ := fetch_ok hc hstored
  refine ⟨result, ?_, hids ▸ order.nodup _, fun node => ?_⟩
  · have hrun : e.run lit order q.ast q.ast.matchClauses = .ok (result ++ []) := by
      have hclauses : q.ast.matchClauses = [clause] := congrArg (fun c => [c]) hclause
      rw [hclauses, run, hfetch]
      rfl
    rw [execute, ht, Option.map_some]
    dsimp only
    rw [hrun, List.append_nil]
  · rw [← order.mem, ← hids]
    constructor
    · exact fun hmem => ⟨hvalues node hmem, List.mem_map_of_mem hmem⟩
    · intro hx
      obtain ⟨hmem, hid⟩ := hx
      obtain ⟨node', hmem', heq⟩ := List.mem_map.mp hid
      obtain rfl := eq_of_id hc (hvalues node' hmem') hmem heq
      exact hmem'

/-- What the index finds is returned, whatever its labels. -/
theorem labelFollows_of_answers (hc : e.storage.Consistent) (he : e.Exact) (hq : q.OneVariable)
    {W : WordChars} {order : SetOrder} {text : PyStr}
    (ht : parseQuery W text = some (.ok q.ast))
    (h : ∃ result, e.execute lit W order text = some (.ok result) ∧ e.Answers lit q result) :
    e.LabelFollows lit q := by
  obtain ⟨result, hexecute, hanswers⟩ := h
  obtain ⟨result', hexecute', -, hmem⟩ := execute_candidates lit hc he hq W order ht
  obtain rfl : result = result' := by
    rw [hexecute] at hexecute'
    exact Except.ok.inj (Option.some.inj hexecute')
  intro label hlabel c hcond p hp hkey node hnode hv
  have hhit := (mem_indexHits hc he hq).mpr ⟨node, hnode, rfl, c, hcond, p, hp, hkey, hv⟩
  have hcand : node ∈ result := by
    refine (hmem node).mpr ⟨hnode, ?_⟩
    rw [candidates, if_neg (Finset.ne_empty_of_mem hhit)]
    exact hhit
  exact ((hanswers.mem node).mp hcand).2.1 label hlabel

theorem mem_candidates (hc : e.storage.Consistent) (he : e.Exact) (hq : q.OneVariable)
    (hfollows : e.LabelFollows lit q) {node : Node ν} (hnode : node ∈ e.storage.nodes.values) :
    node.id ∈ e.candidates lit q.ast
      ⟨.str q.varName, (q.label.map TokenValue.str).toList, .empty⟩ ↔ q.Wants lit node := by
  rw [candidates]
  split
  · rw [mem_memoryScan]
    constructor
    · intro hx
      obtain ⟨node', hmem', hid, hwants⟩ := hx
      obtain rfl := eq_of_id hc hnode hmem' hid.symm
      exact hwants
    · exact fun hwants => ⟨node, hnode, rfl, hwants⟩
  · next hne =>
    -- some node is found, so that the query has a condition on an indexed property
    obtain ⟨i, hi⟩ := Finset.nonempty_iff_ne_empty.mpr hne
    obtain ⟨_, -, -, c, hcond, p, hp, hkey, -⟩ := (mem_indexHits hc he hq).mp hi
    rw [mem_indexHits hc he hq]
    constructor
    · intro hx
      obtain ⟨node', hmem', hid, c', hcond', p', hp', hkey', hv⟩ := hx
      obtain rfl := eq_of_id hc hnode hmem' hid.symm
      refine ⟨fun label hlabel => hfollows label hlabel c' hcond' p' hp' hkey' node hnode hv, ?_⟩
      intro c'' hcond''
      obtain rfl := Option.mem_unique hcond' hcond''
      exact ⟨p', hp', hv⟩
    · intro hwants
      obtain ⟨p', hp', hv⟩ := hwants.2 c hcond
      obtain rfl := Option.mem_unique hp hp'
      exact ⟨node, hnode, rfl, c, hcond, p, hp, hkey, hv⟩

/-- With exact indexes a query is answered with the nodes it asks for if and only if the
nodes that an index finds carry the label. -/
theorem execute_answers_iff (W : WordChars) (order : SetOrder) (lit : TokenValue → ν)
    (e : ExecutionEngine ν ω) (q : Query) (text : PyStr) (hc : e.storage.Consistent)
    (he : e.Exact) (hq : q.OneVariable) (ht : parseQuery W text = some (.ok q.ast)) :
    (∃ result, e.execute lit W order text = some (.ok result) ∧ e.Answers lit q result) ↔
      e.LabelFollows lit q := by
  constructor
  · exact labelFollows_of_answers hc he hq ht
  · intro hfollows
    obtain ⟨result, hexecute, hnodup, hmem⟩ := execute_candidates lit hc he hq W order ht
    refine ⟨result, hexecute, hnodup, fun node => ?_⟩
    rw [hmem]
    exact and_congr_right fun hnode => mem_candidates hc he hq hfollows hnode

/-! ## A company called Alice -/

def people : Query :=
  ⟨PyStr.lit "p", some (PyStr.lit "Person"),
    some ⟨PyStr.lit "p", PyStr.lit "name", .str (PyStr.lit "Alice")⟩, PyStr.lit "p"⟩

theorem people_oneVariable : people.OneVariable where
  condition c hc := by
    cases hc
    rfl
  returned := rfl

theorem parse_people : parseQuery WordChars.least
    (PyStr.lit "MATCH (p:Person) WHERE p.name = 'Alice' RETURN p") = some (.ok people.ast) := by
  decide +kernel

/-- A literal as a property value: strings only. -/
def stringLiteral (v : TokenValue) : String := v.key?.getD ""

/-- A store with an index on `name` and one node, whose name is Alice. -/
def oneNode (label : String) : ExecutionEngine String Unit :=
  ((init 10).perform (.createIndex "name")).perform (.graph (.addNode [label] alice))

theorem oneNode_consistent (label : String) : (oneNode label).storage.Consistent :=
  consistent_perform (consistent_perform (GraphStorage.consistent_init 10) _) _

def aliceNode (label : String) : Node String := ⟨1, [label].toFinset, alice⟩

theorem oneNode_exact (label : String) : (oneNode label).Exact := by
  intro p hp v i
  have hmgr : (oneNode label).indexMgr =
      (IndexManager.init.createIndex "name").onNodeCreated (aliceNode label) := rfl
  have hnodes : (oneNode label).storage.nodes = Dict.empty.set 1 (aliceNode label) := rfl
  have hkey : p ∈ (IndexManager.init.createIndex (ν := String) "name").indices.keys := by
    rwa [hmgr, IndexManager.keys_onNodeCreated] at hp
  have hinit : (IndexManager.init (ν := String)).search p v = ∅ := rfl
  rw [hmgr, IndexManager.mem_search_onNodeCreated, IndexManager.search_createIndex, hinit, hnodes]
  simp only [Dict.get?_set, Dict.get?_empty]
  constructor
  · intro hx
    rcases hx with hi | ⟨-, rfl, hv⟩
    · cases hi
    · exact ⟨aliceNode label, if_pos rfl, hv⟩
  · intro hx
    obtain ⟨node, hnode, hv⟩ := hx
    split at hnode
    · next hi =>
      cases hnode
      exact Or.inr ⟨hkey, hi, hv⟩
    · cases hnode

theorem oneNode_values (label : String) :
    (oneNode label).storage.nodes.values = [aliceNode label] := rfl

theorem carries_person {label : String} :
    Carries (PyStr.lit "Person") (aliceNode label) ↔ label = "Person" := by
  have hperson : PyStr.string? (PyStr.lit "Person") = some "Person" := by decide
  rw [Carries, hperson]
  simp [aliceNode, eq_comm]

def ascending : SetOrder where
  list s := s.sort (· ≤ ·)
  nodup s := s.sort_nodup _
  mem s _ := s.mem_sort _

/-- The person Alice is found. -/
theorem execute_people : ∃ result,
    (oneNode "Person").execute stringLiteral WordChars.least ascending
      (PyStr.lit "MATCH (p:Person) WHERE p.name = 'Alice' RETURN p") = some (.ok result) ∧
    (oneNode "Person").Answers stringLiteral people result := by
  refine (execute_answers_iff WordChars.least ascending stringLiteral (oneNode "Person") people _
    (oneNode_consistent _) (oneNode_exact _) people_oneVariable parse_people).mpr ?_
  intro label hlabel c hc p hp hkey node hnode hv
  cases hlabel
  rw [oneNode_values, List.mem_singleton] at hnode
  rw [hnode, carries_person]

/-- The company Alice is given for a person. -/
theorem seek_ignores_label : ¬ ∀ (ν ω : Type) (_ : DecidableEq ν) (W : WordChars)
    (order : SetOrder) (lit : TokenValue → ν) (e : ExecutionEngine ν ω) (q : Query) (text : PyStr),
    e.storage.Consistent → e.Exact → q.OneVariable → parseQuery W text = some (.ok q.ast) →
      ∃ result, e.execute lit W order text = some (.ok result) ∧ e.Answers lit q result := by
  intro h
  have hanswers := h String Unit _ WordChars.least ascending stringLiteral (oneNode "Company")
    people _ (oneNode_consistent _) (oneNode_exact _) people_oneVariable parse_people
  have hfollows := labelFollows_of_answers (oneNode_consistent _) (oneNode_exact _)
    people_oneVariable parse_people hanswers
  have hcarries := hfollows (PyStr.lit "Person") rfl _ rfl "name" (by decide)
    (by decide) (aliceNode "Company") (by rw [oneNode_values]; exact List.mem_cons_self) (by decide)
  rw [carries_person] at hcarries
  revert hcarries
  decide

end ExecutionEngine

end PythonPortfolio.Nebula
