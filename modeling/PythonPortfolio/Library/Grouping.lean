import PythonPortfolio.Library.Dict

/-!
# Secondary indexes

An index from keys to rows groups a list of items: the row of a key holds the
items with that key, in the order of the list, and a key without items has no
row. The three rules say how an index follows the list when an item is appended,
when items of one key disappear, and when a whole row is dropped.
-/

namespace PythonPortfolio.Library

variable {κ α : Type} [DecidableEq κ]

/-- The row that stands for a list: none for the empty list. -/
def nonempty? : List α → Option (List α)
  | [] => none
  | x :: xs => some (x :: xs)

@[simp] theorem getD_nonempty? (l : List α) : (nonempty? l).getD [] = l := by
  cases l <;> rfl

theorem nonempty?_eq_some {l r : List α} : nonempty? l = some r ↔ l = r ∧ r ≠ [] := by
  cases l with
  | nil =>
    constructor
    · intro h
      cases h
    · intro hx
      obtain ⟨rfl, hne⟩ := hx
      exact absurd rfl hne
  | cons x xs =>
    constructor
    · intro h
      cases h
      exact ⟨rfl, by simp⟩
    · intro hx
      obtain ⟨rfl, _⟩ := hx
      rfl

theorem nonempty?_of_ne {l : List α} (h : l ≠ []) : nonempty? l = some l :=
  nonempty?_eq_some.mpr ⟨rfl, h⟩

/-- `d.get(k, [])`. -/
def Dict.row (index : Dict κ (List α)) (k : κ) : List α := (index.get? k).getD []

/-- `index` groups `items` by `key`. -/
def Groups (key : α → κ) (items : List α) (index : Dict κ (List α)) : Prop :=
  ∀ k, index.get? k = nonempty? (items.filter fun x => key x = k)

namespace Groups

variable {key : α → κ} {items : List α} {index index' : Dict κ (List α)}

theorem empty (key : α → κ) : Groups key [] Dict.empty := fun _ => rfl

theorem row (h : Groups key items index) (k : κ) :
    index.row k = items.filter fun x => key x = k := by
  rw [Dict.row, h k, getD_nonempty?]

/-- No row is empty. -/
theorem row_ne_nil (h : Groups key items index) {k : κ} {l : List α} (hl : index.get? k = some l) :
    l ≠ [] := by
  rw [h k] at hl
  exact (nonempty?_eq_some.mp hl).2

/-- A key has a row exactly when some item has the key. -/
theorem mem_keys (h : Groups key items index) {k : κ} :
    k ∈ index.keys ↔ ∃ x ∈ items, key x = k := by
  rw [← Dict.get?_isSome, h k]
  cases hf : items.filter fun x => key x = k with
  | nil =>
    rw [List.filter_eq_nil_iff] at hf
    simpa [nonempty?] using hf
  | cons x xs =>
    have hx : x ∈ items.filter fun x => key x = k := by simp [hf]
    rw [List.mem_filter, decide_eq_true_eq] at hx
    exact iff_of_true rfl ⟨x, hx⟩

theorem append (h : Groups key items index) {x : α}
    (hx : ∀ k, index'.get? k =
      if k = key x then some (index.row (key x) ++ [x]) else index.get? k) :
    Groups key (items ++ [x]) index' := by
  intro k
  rw [hx k, List.filter_append, List.filter_singleton]
  by_cases hk : k = key x
  · rw [if_pos hk, h.row, hk, decide_eq_true rfl, cond_true]
    exact (nonempty?_of_ne (by simp)).symm
  · have hk' : ¬ key x = k := fun he => hk he.symm
    rw [if_neg hk, decide_eq_false hk', cond_false, List.append_nil, h k]

/-- Items of one key disappear from the list and from their row. -/
theorem discard (h : Groups key items index) {keep : α → Bool} {k₀ : κ}
    (hkeep : ∀ x ∈ items, keep x = false → key x = k₀)
    (hx : ∀ k, index'.get? k =
      if k = k₀ then nonempty? ((index.row k₀).filter keep) else index.get? k) :
    Groups key (items.filter keep) index' := by
  intro k
  rw [hx k]
  split
  · next hk =>
    rw [hk, h.row, List.filter_filter, List.filter_filter]
    congr 2
    funext x
    exact Bool.and_comm _ _
  · next hk =>
    rw [h k, List.filter_filter]
    congr 1
    refine List.filter_congr fun x hmem => ?_
    by_cases hkx : key x = k
    · cases hkp : keep x with
      | true => simp
      | false => exact absurd (hkx.symm.trans (hkeep x hmem hkp)) hk
    · simp [hkx]

/-- Dropping the row of a key drops the items of the key. -/
theorem erase (h : Groups key items index) (k₀ : κ) :
    Groups key (items.filter fun x => key x ≠ k₀) (index.erase k₀) := by
  have hkeep : ∀ x ∈ items, decide (key x ≠ k₀) = false → key x = k₀ :=
    fun x _ hx => by simpa using hx
  refine h.discard hkeep fun k => ?_
  rw [Dict.get?_erase]
  split
  · rw [h.row, List.filter_filter, List.filter_eq_nil_iff.mpr (by simp)]
    rfl
  · rfl

end Groups

end PythonPortfolio.Library
