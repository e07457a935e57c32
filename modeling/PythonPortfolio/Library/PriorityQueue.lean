import Mathlib.Data.List.Sort

/-!
# Priority queues

A queue from which the least element leaves first. What a binary heap holds is
kept in order, so that the next element to leave is the first one.
-/

namespace PythonPortfolio.Library

structure PriorityQueue (α : Type) [LinearOrder α] where
  items : List α
  sorted : items.Pairwise (· ≤ ·)

namespace PriorityQueue

variable {α : Type} [LinearOrder α]

def singleton (a : α) : PriorityQueue α := ⟨[a], List.pairwise_singleton _ a⟩

/-- `heapq.heappush`. -/
def push (q : PriorityQueue α) (a : α) : PriorityQueue α :=
  ⟨q.items.orderedInsert (· ≤ ·) a, q.sorted.orderedInsert a q.items⟩

/-- `heapq.heappop`; none for the empty queue. -/
def pop? : PriorityQueue α → Option (α × PriorityQueue α)
  | ⟨[], _⟩ => none
  | ⟨a :: rest, h⟩ => some (a, ⟨rest, (List.pairwise_cons.mp h).2⟩)

variable {q q' : PriorityQueue α} {a b : α}

@[simp] theorem mem_singleton : b ∈ (singleton a).items ↔ b = a := List.mem_singleton

@[simp] theorem mem_push : b ∈ (q.push a).items ↔ b = a ∨ b ∈ q.items :=
  List.mem_orderedInsert _

@[simp] theorem length_push : (q.push a).items.length = q.items.length + 1 :=
  List.orderedInsert_length _ _ _

theorem pop?_eq_none : q.pop? = none ↔ q.items = [] := by
  obtain ⟨items, hsorted⟩ := q
  cases items with
  | nil => exact iff_of_true rfl rfl
  | cons a rest => exact iff_of_false (by simp [pop?]) (by simp)

theorem pop?_eq_some (h : q.pop? = some (a, q')) : q.items = a :: q'.items := by
  obtain ⟨items, hsorted⟩ := q
  cases items with
  | nil => cases h
  | cons b rest =>
    cases h
    rfl

theorem mem_pop? (h : q.pop? = some (a, q')) : b ∈ q.items ↔ b = a ∨ b ∈ q'.items := by
  rw [pop?_eq_some h, List.mem_cons]

theorem length_pop? (h : q.pop? = some (a, q')) : q.items.length = q'.items.length + 1 := by
  rw [pop?_eq_some h, List.length_cons]

/-- The element that leaves is the least one. -/
theorem pop?_le (h : q.pop? = some (a, q')) (hb : b ∈ q.items) : a ≤ b := by
  have hsorted := q.sorted
  rw [pop?_eq_some h] at hsorted hb
  rcases List.mem_cons.mp hb with hb | hb
  · exact hb.ge
  · exact (List.pairwise_cons.mp hsorted).1 b hb

end PriorityQueue

end PythonPortfolio.Library
