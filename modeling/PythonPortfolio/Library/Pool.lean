import Mathlib.Data.List.Dedup
import Mathlib.Data.List.TakeWhile

/-!
# Interning

A pool is a list without repetitions that only grows at its end. Interning a value
gives its index in the pool, after adding it if it is new; an index once given stays
good in every later pool.
-/

namespace PythonPortfolio.Library

variable {α : Type} [DecidableEq α]

def poolIndex (pool : List α) (a : α) : Nat := pool.idxOf a

/-- The pool with `a` in it, and the index of `a`. -/
def intern (pool : List α) (a : α) : List α × Nat :=
  if a ∈ pool then (pool, poolIndex pool a) else (pool ++ [a], pool.length)

/-- The pool after interning the members of a list in order. -/
def internAll (pool l : List α) : List α := l.foldl (fun pool a => (intern pool a).1) pool

theorem prefix_intern (pool : List α) (a : α) : pool <+: (intern pool a).1 := by
  unfold intern
  split
  · exact List.prefix_refl pool
  · exact List.prefix_append pool [a]

theorem mem_intern {pool : List α} {a b : α} : b ∈ (intern pool a).1 ↔ b ∈ pool ∨ b = a := by
  unfold intern
  split
  · next h => exact ⟨Or.inl, fun hb => hb.elim id fun he => he ▸ h⟩
  · rw [List.mem_append, List.mem_singleton]

theorem nodup_intern {pool : List α} (h : pool.Nodup) (a : α) : (intern pool a).1.Nodup := by
  unfold intern
  split
  · exact h
  · next ha =>
    refine List.nodup_append.mpr ⟨h, List.nodup_singleton a, fun b hb c hc he => ha ?_⟩
    rw [← List.mem_singleton.mp hc, ← he]
    exact hb

theorem intern_snd (pool : List α) (a : α) :
    (intern pool a).2 = poolIndex (intern pool a).1 a := by
  unfold intern
  split
  · rfl
  · next ha => rw [poolIndex, List.idxOf_append_of_notMem ha, List.idxOf_cons_self, Nat.add_zero]

/-- An index stays good when the pool grows. -/
theorem poolIndex_of_prefix {pool pool' : List α} (h : pool <+: pool') {a : α} (ha : a ∈ pool) :
    poolIndex pool' a = poolIndex pool a := by
  obtain ⟨rest, rfl⟩ := h
  exact List.idxOf_append_of_mem ha

theorem getElem?_poolIndex {pool : List α} {a : α} (ha : a ∈ pool) :
    pool[poolIndex pool a]? = some a := by
  rw [poolIndex, List.getElem?_eq_getElem (List.idxOf_lt_length_of_mem ha), List.getElem_idxOf]

/-- In a pool without repetitions a value has one place. -/
theorem poolIndex_of_getElem? {pool : List α} (h : pool.Nodup) {a : α} {i : Nat}
    (hi : pool[i]? = some a) : poolIndex pool a = i := by
  obtain ⟨hlt, rfl⟩ := List.getElem?_eq_some_iff.mp hi
  exact h.idxOf_getElem i hlt

@[simp] theorem internAll_nil (pool : List α) : internAll pool [] = pool := rfl

@[simp] theorem internAll_cons (pool l : List α) (a : α) :
    internAll pool (a :: l) = internAll (intern pool a).1 l := rfl

theorem internAll_append (pool l l' : List α) :
    internAll pool (l ++ l') = internAll (internAll pool l) l' := List.foldl_append

theorem prefix_internAll (pool l : List α) : pool <+: internAll pool l := by
  induction l generalizing pool with
  | nil => exact List.prefix_refl pool
  | cons a l ih => exact (prefix_intern pool a).trans (ih _)

theorem mem_internAll {pool l : List α} {b : α} : b ∈ internAll pool l ↔ b ∈ pool ∨ b ∈ l := by
  induction l generalizing pool with
  | nil => simp
  | cons a l ih => rw [internAll_cons, ih, mem_intern, List.mem_cons, or_assoc]

theorem nodup_internAll {pool : List α} (h : pool.Nodup) (l : List α) :
    (internAll pool l).Nodup := by
  induction l generalizing pool with
  | nil => exact h
  | cons a l ih => exact ih (nodup_intern h a)

/-- A pool has one place for each distinct value. -/
theorem length_internAll (l : List α) : (internAll [] l).length = l.dedup.length := by
  refine List.Perm.length_eq ?_
  rw [List.perm_ext_iff_of_nodup (nodup_internAll List.nodup_nil l) (List.nodup_dedup l)]
  intro b
  rw [mem_internAll, List.mem_dedup]
  simp

theorem poolIndex_internAll_lt {l : List α} {a : α} (ha : a ∈ l) :
    poolIndex (internAll [] l) a < l.dedup.length := by
  rw [← length_internAll]
  exact List.idxOf_lt_length_of_mem (mem_internAll.mpr (Or.inr ha))

/-- The place of a value is the number of distinct values interned before it. -/
theorem poolIndex_internAll (l l' : List α) (a : α) :
    poolIndex (internAll [] (l ++ a :: l')) a = (l.takeWhile (· ≠ a)).dedup.length := by
  have hfirst : ∃ before after, l ++ a :: l' = before ++ a :: after ∧ a ∉ before ∧
      l.takeWhile (· ≠ a) = before := by
    by_cases ha : a ∈ l
    · obtain ⟨before, after, rfl, hbefore⟩ := List.eq_append_cons_of_mem ha
      refine ⟨before, after ++ a :: l', by simp, hbefore, ?_⟩
      have hne : ∀ b ∈ before, decide (b ≠ a) = true := fun b hb => by
        simpa using fun he : b = a => hbefore (he ▸ hb)
      rw [List.takeWhile_append_of_pos hne]
      simp
    · refine ⟨l, l', rfl, ha, List.takeWhile_eq_self_iff.mpr fun b hb => ?_⟩
      simpa using fun he : b = a => ha (he ▸ hb)
  obtain ⟨before, after, hsplit, hbefore, htake⟩ := hfirst
  have hnot : a ∉ internAll [] before := fun hmem =>
    hbefore ((mem_internAll.mp hmem).resolve_left List.not_mem_nil)
  have hpre : internAll [] before ++ [a] <+: internAll [] (before ++ a :: after) := by
    rw [internAll_append, internAll_cons, intern, if_neg hnot]
    exact prefix_internAll _ after
  rw [hsplit, htake, poolIndex_of_prefix hpre (List.mem_append_right _ (List.mem_singleton_self a)),
    poolIndex, List.idxOf_append_of_notMem hnot, List.idxOf_cons_self, Nat.add_zero,
    length_internAll]

/-- Every index is below `n` when there are at most `n` distinct values. -/
theorem poolIndex_internAll_lt_iff {l : List α} {n : Nat} :
    (∀ a ∈ l, poolIndex (internAll [] l) a < n) ↔ l.dedup.length ≤ n := by
  constructor
  · intro h
    rw [← length_internAll]
    by_contra hlong
    have hlt : n < (internAll [] l).length := Nat.lt_of_not_le hlong
    have hmem := mem_internAll.mp (List.getElem_mem hlt)
    have hidx := poolIndex_of_getElem? (nodup_internAll List.nodup_nil l)
      (List.getElem?_eq_getElem hlt)
    have := h _ (hmem.resolve_left List.not_mem_nil)
    omega
  · exact fun h a ha => Nat.lt_of_lt_of_le (poolIndex_internAll_lt ha) h

end PythonPortfolio.Library
