import Mathlib.Data.List.Nodup
import Mathlib.Tactic.Linarith

/-!
# Insertion-ordered dictionaries

A dictionary is an association list without repeated keys, in insertion order:
storing under a present key replaces its value in place, storing under a new key
appends. That keys are distinct is part of the type. Two views are kept in step
by the lemmas: the lookup function `get?` and the ordered lists of keys, values
and items.
-/

namespace PythonPortfolio.Library

structure Dict (κ ν : Type) where
  items : List (κ × ν)
  nodup : (items.map Prod.fst).Nodup

namespace Dict

variable {κ ν : Type}

@[ext] theorem ext {d d' : Dict κ ν} (h : d.items = d'.items) : d = d' := by
  cases d
  cases d'
  cases h
  rfl

instance [DecidableEq κ] [DecidableEq ν] : DecidableEq (Dict κ ν) := fun d d' =>
  decidable_of_iff (d.items = d'.items) ⟨ext, fun h => h ▸ rfl⟩

def empty : Dict κ ν := ⟨[], List.nodup_nil⟩

instance : Inhabited (Dict κ ν) := ⟨empty⟩

def keys (d : Dict κ ν) : List κ := d.items.map Prod.fst

def values (d : Dict κ ν) : List ν := d.items.map Prod.snd

def size (d : Dict κ ν) : Nat := d.items.length

theorem keys_nodup (d : Dict κ ν) : d.keys.Nodup := d.nodup

@[simp] theorem length_keys (d : Dict κ ν) : d.keys.length = d.size := by
  simp [keys, size]

@[simp] theorem keys_empty : (empty : Dict κ ν).keys = [] := rfl

@[simp] theorem values_empty : (empty : Dict κ ν).values = [] := rfl

variable [DecidableEq κ]

def get? (d : Dict κ ν) (k : κ) : Option ν := d.items.lookup k

def contains (d : Dict κ ν) (k : κ) : Bool := decide (k ∈ d.keys)

/-- `d[k] = v` on the list of items. -/
def setItems (k : κ) (v : ν) : List (κ × ν) → List (κ × ν)
  | [] => [(k, v)]
  | (k', v') :: rest => if k' = k then (k, v) :: rest else (k', v') :: setItems k v rest

theorem keys_setItems (k : κ) (v : ν) (l : List (κ × ν)) :
    (setItems k v l).map Prod.fst =
      if k ∈ l.map Prod.fst then l.map Prod.fst else l.map Prod.fst ++ [k] := by
  induction l with
  | nil => simp [setItems]
  | cons p rest ih =>
    obtain ⟨k', v'⟩ := p
    by_cases hk : k' = k
    · simp [setItems, hk]
    · have hk' : ¬ k = k' := fun h => hk h.symm
      simp only [setItems, hk, if_false, List.map_cons, List.mem_cons, hk', false_or, ih]
      split <;> rfl

def set (d : Dict κ ν) (k : κ) (v : ν) : Dict κ ν where
  items := setItems k v d.items
  nodup := by
    rw [keys_setItems]
    split
    · exact d.nodup
    · next h =>
      exact List.nodup_append.mpr ⟨d.nodup, List.nodup_singleton k, by
        intro a ha b hb hab
        rw [List.mem_singleton] at hb
        exact h (by rw [← hb, ← hab]; exact ha)⟩

/-- `del d[k]`, which is also what `d.pop(k, default)` does to `d`. -/
def erase (d : Dict κ ν) (k : κ) : Dict κ ν where
  items := d.items.filter fun p => p.1 ≠ k
  nodup := d.nodup.sublist (List.Sublist.map _ List.filter_sublist)

theorem lookup_cons (k a : κ) (b : ν) (l : List (κ × ν)) :
    ((a, b) :: l).lookup k = if k = a then some b else l.lookup k := by
  by_cases h : k = a
  · simp [h]
  · have hb : (k == a) = false := by simpa using h
    rw [List.lookup_cons, hb, if_neg h]

theorem lookup_setItems (k k' : κ) (v : ν) (l : List (κ × ν)) :
    (setItems k v l).lookup k' = if k' = k then some v else l.lookup k' := by
  induction l with
  | nil => simp [setItems, lookup_cons]
  | cons p rest ih =>
    obtain ⟨a, b⟩ := p
    by_cases ha : a = k
    · subst ha
      by_cases h : k' = a <;> simp [setItems, lookup_cons, h]
    · by_cases h : k' = a
      · subst h
        simp [setItems, ha]
      · simp [setItems, ha, lookup_cons, h, ih]

@[simp] theorem get?_set (d : Dict κ ν) (k k' : κ) (v : ν) :
    (d.set k v).get? k' = if k' = k then some v else d.get? k' :=
  lookup_setItems k k' v d.items

theorem lookup_filter (k k' : κ) (l : List (κ × ν)) :
    (l.filter fun p => p.1 ≠ k).lookup k' = if k' = k then none else l.lookup k' := by
  induction l with
  | nil => simp
  | cons p rest ih =>
    obtain ⟨a, b⟩ := p
    by_cases ha : a = k
    · subst ha
      rw [List.filter_cons_of_neg (by simp), ih, lookup_cons]
      by_cases h : k' = a <;> simp [h]
    · rw [List.filter_cons_of_pos (by simpa using ha), lookup_cons, lookup_cons, ih]
      by_cases h : k' = a
      · simp [h, ha]
      · simp [h]

@[simp] theorem get?_erase (d : Dict κ ν) (k k' : κ) :
    (d.erase k).get? k' = if k' = k then none else d.get? k' :=
  lookup_filter k k' d.items

@[simp] theorem get?_empty (k : κ) : (empty : Dict κ ν).get? k = none := rfl

theorem lookup_isSome (k : κ) (l : List (κ × ν)) :
    (l.lookup k).isSome ↔ k ∈ l.map Prod.fst := by
  induction l with
  | nil => simp
  | cons p rest ih =>
    obtain ⟨a, b⟩ := p
    by_cases h : k = a <;> simp [lookup_cons, h, ih]

theorem get?_isSome {d : Dict κ ν} {k : κ} : (d.get? k).isSome ↔ k ∈ d.keys :=
  lookup_isSome k d.items

theorem get?_eq_none {d : Dict κ ν} {k : κ} : d.get? k = none ↔ k ∉ d.keys := by
  rw [← get?_isSome]
  cases d.get? k <;> simp

@[simp] theorem contains_eq_true {d : Dict κ ν} {k : κ} :
    d.contains k = true ↔ k ∈ d.keys := by
  simp [contains]

theorem mem_items_of_lookup {k : κ} {v : ν} {l : List (κ × ν)} (h : l.lookup k = some v) :
    (k, v) ∈ l := by
  induction l with
  | nil => simp at h
  | cons p rest ih =>
    obtain ⟨a, b⟩ := p
    rw [lookup_cons] at h
    split at h
    · next hk =>
      cases h
      exact hk ▸ List.mem_cons_self
    · exact List.mem_cons_of_mem _ (ih h)

/-- Under distinct keys the lookup finds exactly the stored pairs. -/
theorem get?_eq_some {d : Dict κ ν} {k : κ} {v : ν} : d.get? k = some v ↔ (k, v) ∈ d.items := by
  refine ⟨mem_items_of_lookup, fun h => ?_⟩
  obtain ⟨l, hnodup⟩ := d
  change l.lookup k = some v
  induction l with
  | nil => simp at h
  | cons p rest ih =>
    obtain ⟨a, b⟩ := p
    rw [List.map_cons, List.nodup_cons] at hnodup
    rcases List.mem_cons.mp h with heq | hmem
    · cases heq
      simp
    · have hne : k ≠ a := fun he => hnodup.1 (List.mem_map.mpr ⟨(k, v), hmem, he⟩)
      rw [lookup_cons, if_neg hne]
      exact ih hnodup.2 hmem

theorem keys_set (d : Dict κ ν) (k : κ) (v : ν) :
    (d.set k v).keys = if k ∈ d.keys then d.keys else d.keys ++ [k] :=
  keys_setItems k v d.items

theorem setItems_of_not_mem {k : κ} {v : ν} {l : List (κ × ν)} (h : k ∉ l.map Prod.fst) :
    setItems k v l = l ++ [(k, v)] := by
  induction l with
  | nil => rfl
  | cons p rest ih =>
    obtain ⟨a, b⟩ := p
    rw [List.map_cons, List.mem_cons, not_or] at h
    have hne : ¬ a = k := fun he => h.1 he.symm
    simp [setItems, hne, ih h.2]

/-- Storing under a new key appends the item. -/
theorem items_set_of_not_mem {d : Dict κ ν} {k : κ} {v : ν} (h : k ∉ d.keys) :
    (d.set k v).items = d.items ++ [(k, v)] :=
  setItems_of_not_mem h

@[simp] theorem items_erase (d : Dict κ ν) (k : κ) :
    (d.erase k).items = d.items.filter fun p => p.1 ≠ k := rfl

theorem keys_erase (d : Dict κ ν) (k : κ) : (d.erase k).keys = d.keys.filter (· ≠ k) := by
  simp only [keys, items_erase, List.filter_map]
  rfl

@[simp] theorem mem_keys_erase {d : Dict κ ν} {k k' : κ} :
    k' ∈ (d.erase k).keys ↔ k' ∈ d.keys ∧ k' ≠ k := by
  rw [keys_erase, List.mem_filter]
  simp

theorem size_set_of_not_mem {d : Dict κ ν} {k : κ} {v : ν} (h : k ∉ d.keys) :
    (d.set k v).size = d.size + 1 := by
  simp [size, items_set_of_not_mem h]

theorem size_set_of_mem {d : Dict κ ν} {k : κ} {v : ν} (h : k ∈ d.keys) :
    (d.set k v).size = d.size := by
  rw [← length_keys, ← length_keys, keys_set, if_pos h]

/-- `dict(pairs)`. -/
def ofPairs (pairs : List (κ × ν)) : Dict κ ν := pairs.foldl (fun d p => d.set p.1 p.2) empty

/-- Assignments under keys without repetition keep what was there and add each value. -/
theorem get?_foldl_set {α : Type} (key : α → κ) (value : α → ν) {l : List α}
    (h : (l.map key).Nodup) (d : Dict κ ν) (k : κ) :
    (l.foldl (fun d a => d.set (key a) (value a)) d).get? k =
      match l.find? fun a => key a = k with
      | some a => some (value a)
      | none => d.get? k := by
  induction l generalizing d with
  | nil => rfl
  | cons a l ih =>
    obtain ⟨hnew, hnodup⟩ := List.nodup_cons.mp h
    rw [List.foldl_cons, ih hnodup]
    by_cases hk : key a = k
    · have hnone : l.find? (fun b => key b = k) = none := by
        refine List.find?_eq_none.mpr fun b hb => ?_
        have hne : key b ≠ k := fun hb' => hnew (List.mem_map.mpr ⟨b, hb, hb'.trans hk.symm⟩)
        simpa using hne
      rw [hnone, List.find?_cons_of_pos (by simpa using hk)]
      simp [hk]
    · rw [List.find?_cons_of_neg (by simpa using hk)]
      have hk' : ¬ k = key a := fun he => hk he.symm
      cases l.find? fun b => key b = k with
      | some b => rfl
      | none => simp [hk']

theorem get?_ofPairs {pairs : List (κ × ν)} (h : (pairs.map Prod.fst).Nodup) {k : κ} {v : ν}
    (hmem : (k, v) ∈ pairs) : (ofPairs pairs).get? k = some v := by
  unfold ofPairs
  rw [get?_foldl_set Prod.fst Prod.snd h]
  cases hf : pairs.find? fun p => p.1 = k with
  | none =>
    have := List.find?_eq_none.mp hf _ hmem
    simp at this
  | some p =>
    have hp := List.mem_of_find?_eq_some hf
    have hkey : p.1 = k := by simpa using List.find?_some hf
    have := List.inj_on_of_nodup_map h hp hmem hkey
    rw [this]

theorem mem_keys_ofPairs {pairs : List (κ × ν)} (h : (pairs.map Prod.fst).Nodup) {k : κ} :
    k ∈ (ofPairs pairs).keys ↔ k ∈ pairs.map Prod.fst := by
  constructor
  · intro hk
    by_contra hno
    refine absurd hk (get?_eq_none.mp ?_)
    unfold ofPairs
    rw [get?_foldl_set Prod.fst Prod.snd h]
    have hnone : pairs.find? (fun p => p.1 = k) = none := by
      refine List.find?_eq_none.mpr fun p hp => ?_
      have hne : p.1 ≠ k := fun he => hno (List.mem_map.mpr ⟨p, hp, he⟩)
      simpa using hne
    rw [hnone]
    rfl
  · intro hk
    obtain ⟨p, hp, rfl⟩ := List.mem_map.mp hk
    rw [← get?_isSome, get?_ofPairs h hp]
    rfl

end Dict

end PythonPortfolio.Library
