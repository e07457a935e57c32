import Mathlib.Data.Finset.Basic
import Mathlib.Tactic.Tauto
import PythonPortfolio.Nebula.Invariant

/-!
# Property indexes

`IndexManager` holds hash indexes from the values of a property to sets of node ids.
Values are compared as the dictionaries do it. An index starts out empty when it is
created and hears of a node only when the node has just been added, so what it finds
is a matter of history: the nodes added while it has existed.
-/

namespace PythonPortfolio.Nebula

open Library

variable {ν ω : Type} [DecidableEq ν]

structure PropertyIndex (ν : Type) where
  propertyName : String
  items : Dict ν (Finset Int)

namespace PropertyIndex

def init (propertyName : String) : PropertyIndex ν := ⟨propertyName, .empty⟩

def add (idx : PropertyIndex ν) (value : ν) (nodeId : Int) : PropertyIndex ν :=
  { idx with items := idx.items.set value (insert nodeId ((idx.items.get? value).getD ∅)) }

def remove (idx : PropertyIndex ν) (value : ν) (nodeId : Int) : PropertyIndex ν :=
  match idx.items.get? value with
  | none => idx
  | some ids =>
    if ids.erase nodeId = ∅ then { idx with items := idx.items.erase value }
    else { idx with items := idx.items.set value (ids.erase nodeId) }

def lookup (idx : PropertyIndex ν) (value : ν) : Finset Int := (idx.items.get? value).getD ∅

@[simp] theorem lookup_init (propertyName : String) (v : ν) :
    (init propertyName).lookup v = ∅ := rfl

theorem lookup_add (idx : PropertyIndex ν) (value v : ν) (nodeId : Int) :
    (idx.add value nodeId).lookup v =
      if v = value then insert nodeId (idx.lookup v) else idx.lookup v := by
  rw [lookup, add, Dict.get?_set]
  split
  · next h =>
    rw [h]
    rfl
  · rfl

/-- Dropping the key of an empty set does not show in a lookup. -/
theorem lookup_remove (idx : PropertyIndex ν) (value v : ν) (nodeId : Int) :
    (idx.remove value nodeId).lookup v =
      if v = value then (idx.lookup v).erase nodeId else idx.lookup v := by
  unfold remove lookup
  cases hv : idx.items.get? value with
  | none =>
    by_cases h : v = value
    · simp [h, hv]
    · simp [h]
  | some ids =>
    dsimp only
    split
    · next hempty =>
      by_cases h : v = value
      · simp [h, hv, hempty]
      · simp [h]
    · by_cases h : v = value
      · simp [h, hv]
      · simp [h]

end PropertyIndex

structure IndexManager (ν : Type) where
  indices : Dict String (PropertyIndex ν)

namespace IndexManager

def init : IndexManager ν := ⟨.empty⟩

def createIndex (m : IndexManager ν) (propertyName : String) : IndexManager ν :=
  if m.indices.contains propertyName then m
  else ⟨m.indices.set propertyName (.init propertyName)⟩

def dropIndex (m : IndexManager ν) (propertyName : String) : IndexManager ν :=
  if m.indices.contains propertyName then ⟨m.indices.erase propertyName⟩ else m

/-- One turn of the loop of `on_node_created`. -/
def index (nodeId : Int) (m : IndexManager ν) (item : String × ν) : IndexManager ν :=
  match m.indices.get? item.1 with
  | some idx => ⟨m.indices.set item.1 (idx.add item.2 nodeId)⟩
  | none => m

def onNodeCreated (m : IndexManager ν) (node : Node ν) : IndexManager ν :=
  node.properties.items.foldl (index node.id) m

def search (m : IndexManager ν) (propertyName : String) (value : ν) : Finset Int :=
  match m.indices.get? propertyName with
  | some idx => idx.lookup value
  | none => ∅

/-! ## What each operation does to a search -/

variable (m : IndexManager ν) (p q : String) (v : ν) (i : Int)

theorem search_of_not_mem {m : IndexManager ν} {p : String} (h : p ∉ m.indices.keys) (v : ν) :
    m.search p v = ∅ := by
  rw [search, Dict.get?_eq_none.mpr h]

omit [DecidableEq ν] in
theorem keys_createIndex :
    p ∈ (m.createIndex q).indices.keys ↔ p ∈ m.indices.keys ∨ p = q := by
  unfold createIndex
  split
  · next h =>
    rw [Dict.contains_eq_true] at h
    constructor
    · exact Or.inl
    · intro hx
      rcases hx with hp | rfl
      · exact hp
      · exact h
  · next h =>
    rw [Dict.contains_eq_true] at h
    rw [Dict.keys_set, if_neg h, List.mem_append, List.mem_singleton]

theorem search_createIndex : (m.createIndex q).search p v = m.search p v := by
  unfold createIndex
  split
  · rfl
  · next h =>
    rw [Dict.contains_eq_true] at h
    by_cases hp : p = q
    · subst hp
      rw [search_of_not_mem h]
      simp [search]
    · simp [search, hp]

omit [DecidableEq ν] in
theorem keys_dropIndex :
    p ∈ (m.dropIndex q).indices.keys ↔ p ∈ m.indices.keys ∧ p ≠ q := by
  unfold dropIndex
  split
  · exact Dict.mem_keys_erase
  · next h =>
    rw [Dict.contains_eq_true] at h
    refine ⟨fun hp => ⟨hp, fun he => h (he ▸ hp)⟩, fun hp => hp.1⟩

theorem search_dropIndex :
    (m.dropIndex q).search p v = if p = q then ∅ else m.search p v := by
  unfold dropIndex
  split
  · by_cases hp : p = q <;> simp [search, hp]
  · next h =>
    rw [Dict.contains_eq_true] at h
    split
    · next hp => exact search_of_not_mem (hp ▸ h) v
    · rfl

theorem keys_index (item : String × ν) :
    p ∈ (m.index i item).indices.keys ↔ p ∈ m.indices.keys := by
  unfold index
  split
  · next idx hidx =>
    have hmem : item.1 ∈ m.indices.keys := Dict.get?_isSome.mp (by rw [hidx]; rfl)
    rw [Dict.keys_set, if_pos hmem]
  · rfl

theorem mem_search_index (nodeId : Int) (item : String × ν) :
    i ∈ (m.index nodeId item).search p v ↔
      i ∈ m.search p v ∨ (p ∈ m.indices.keys ∧ i = nodeId ∧ (p, v) = item) := by
  obtain ⟨q, w⟩ := item
  unfold index
  dsimp only
  split
  · next idx hidx =>
    have hmem : q ∈ m.indices.keys := Dict.get?_isSome.mp (by rw [hidx]; rfl)
    by_cases hp : p = q
    · subst hp
      simp only [search, Dict.get?_set, if_true, hidx, PropertyIndex.lookup_add]
      by_cases hv : v = w
      · simp [hv, hmem, or_comm]
      · simp [hv]
    · simp [search, hp]
  · next hidx =>
    have hnot : q ∉ m.indices.keys := Dict.get?_eq_none.mp hidx
    constructor
    · exact Or.inl
    · intro hx
      rcases hx with h | ⟨hp, -, heq⟩
      · exact h
      · cases heq
        exact absurd hp hnot

theorem keys_onNodeCreated (node : Node ν) :
    p ∈ (m.onNodeCreated node).indices.keys ↔ p ∈ m.indices.keys := by
  unfold onNodeCreated
  induction node.properties.items generalizing m with
  | nil => rfl
  | cons item items ih => rw [List.foldl_cons, ih, keys_index]

/-- The hook adds the node under each of its properties that has an index. -/
theorem mem_search_onNodeCreated (node : Node ν) :
    i ∈ (m.onNodeCreated node).search p v ↔
      i ∈ m.search p v ∨
        (p ∈ m.indices.keys ∧ i = node.id ∧ node.properties.get? p = some v) := by
  rw [Dict.get?_eq_some]
  unfold onNodeCreated
  induction node.properties.items generalizing m with
  | nil => simp
  | cons item items ih =>
    rw [List.foldl_cons, ih, mem_search_index, keys_index, List.mem_cons]
    tauto

end IndexManager

end PythonPortfolio.Nebula
