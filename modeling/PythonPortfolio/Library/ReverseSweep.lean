import Mathlib.Algebra.BigOperators.Group.List.Basic
import Mathlib.Algebra.Group.Hom.Defs

/-!
# Reverse accumulation

Nodes carry cotangents in `M`. Processing a node passes its cotangent on to other
nodes, which add up what they receive. A family of additive functionals, one for each
node, stands for the pairing with a tangent: when a node's functional is the sum of
those of the nodes it passes its cotangent to, the total pairing over the nodes not yet
processed does not change. So a node's pairing, once it is next, is the total at the
start, if no later node is paired with anything.
-/

namespace PythonPortfolio.Library.ReverseSweep

variable {α M K : Type} [DecidableEq α]

section Definitions

variable [AddCommMonoid M]

/-- Add contributions to the cotangents of their nodes, one after the other. -/
def accumulate (g : α → M) (cs : List (α × M)) : α → M :=
  cs.foldl (fun g c => Function.update g c.1 (g c.1 + c.2)) g

/-- Process nodes in order; `adjoint u m` is what `u` passes on from its cotangent `m`. -/
def sweep (adjoint : α → M → List (α × M)) (g : α → M) (order : List α) : α → M :=
  order.foldl (fun g u => accumulate g (adjoint u (g u))) g

@[simp] theorem accumulate_nil (g : α → M) : accumulate g [] = g := rfl

theorem accumulate_cons (g : α → M) (c : α × M) (cs : List (α × M)) :
    accumulate g (c :: cs) = accumulate (Function.update g c.1 (g c.1 + c.2)) cs := rfl

theorem accumulate_of_forall_ne {v : α} {cs : List (α × M)} (h : ∀ c ∈ cs, c.1 ≠ v) (g : α → M) :
    accumulate g cs v = g v := by
  induction cs generalizing g with
  | nil => rfl
  | cons c cs ih =>
    rw [accumulate_cons, ih fun d hd => h d (List.mem_cons_of_mem _ hd)]
    exact Function.update_of_ne (h c List.mem_cons_self).symm _ _

/-- Nodes pass on to nodes that come later only. -/
def Forward (adjoint : α → M → List (α × M)) : List α → Prop
  | [] => True
  | u :: rest => (∀ m, ∀ c ∈ adjoint u m, c.1 ∈ rest) ∧ Forward adjoint rest

omit [DecidableEq α] [AddCommMonoid M] in
theorem Forward.of_append {adjoint : α → M → List (α × M)} {before rest : List α}
    (h : Forward adjoint (before ++ rest)) : Forward adjoint rest := by
  induction before with
  | nil => exact h
  | cons u before ih => exact ih h.2

omit [DecidableEq α] [AddCommMonoid M] in
theorem forward_of_split {adjoint : α → M → List (α × M)} {order : List α}
    (h : ∀ before u after, order = before ++ u :: after → ∀ m, ∀ c ∈ adjoint u m, c.1 ∈ after) :
    Forward adjoint order := by
  induction order with
  | nil => trivial
  | cons u rest ih =>
    exact ⟨h [] u rest rfl, ih fun before v after heq => h (u :: before) v after (by rw [heq]; rfl)⟩

/-- A node that is not listed receives nothing. -/
theorem sweep_of_not_mem {adjoint : α → M → List (α × M)} {order : List α}
    (h : Forward adjoint order) {v : α} (hv : v ∉ order) (g : α → M) :
    sweep adjoint g order v = g v := by
  induction order generalizing g with
  | nil => rfl
  | cons u rest ih =>
    obtain ⟨_, hrest⟩ := not_or.mp (fun hmem => hv (List.mem_cons.mpr hmem))
    have hne : ∀ c ∈ adjoint u (g u), c.1 ≠ v := fun c hc he => hrest (he ▸ h.1 _ c hc)
    show sweep adjoint (accumulate g (adjoint u (g u))) rest v = g v
    rw [ih h.2 hrest, accumulate_of_forall_ne hne]

/-- A node's cotangent is complete when it is processed. -/
theorem sweep_eq_of_nodup {adjoint : α → M → List (α × M)} {before after : List α} {t : α}
    (h : Forward adjoint (before ++ t :: after)) (hnodup : (before ++ t :: after).Nodup)
    (g : α → M) : sweep adjoint g (before ++ t :: after) t = sweep adjoint g before t := by
  have hforward := h.of_append
  have ht : t ∉ after := (List.nodup_cons.mp (List.nodup_append.mp hnodup).2.1).1
  have hne : ∀ g' : α → M, ∀ c ∈ adjoint t (g' t), c.1 ≠ t := fun g' c hc he =>
    ht (he ▸ hforward.1 _ c hc)
  unfold sweep
  rw [List.foldl_append, List.foldl_cons]
  generalize before.foldl (fun g u => accumulate g (adjoint u (g u))) g = g'
  have hlater := sweep_of_not_mem hforward.2 ht (accumulate g' (adjoint t (g' t)))
  rw [accumulate_of_forall_ne (hne g')] at hlater
  exact hlater

end Definitions

variable [AddCommMonoid M] [AddCommMonoid K] (φ : α → M →+ K)

/-- The total pairing over a list of nodes. -/
def total (nodes : List α) (g : α → M) : K := (nodes.map fun u => φ u (g u)).sum

variable {φ}

omit [DecidableEq α] in
theorem total_congr {nodes : List α} {g g' : α → M} (h : ∀ u ∈ nodes, g u = g' u) :
    total φ nodes g = total φ nodes g' :=
  congrArg List.sum (List.map_congr_left fun u hu => by rw [h u hu])

theorem total_update {nodes : List α} (hnodup : nodes.Nodup) {a : α} (ha : a ∈ nodes) (g : α → M)
    (m : M) : total φ nodes (Function.update g a (g a + m)) = total φ nodes g + φ a m := by
  induction nodes with
  | nil => cases ha
  | cons u rest ih =>
    obtain ⟨hu, hrest⟩ := List.nodup_cons.mp hnodup
    show φ u (Function.update g a (g a + m) u) + total φ rest (Function.update g a (g a + m)) =
      φ u (g u) + total φ rest g + φ a m
    by_cases hau : u = a
    · subst hau
      have hsame : total φ rest (Function.update g u (g u + m)) = total φ rest g :=
        total_congr fun w hw => Function.update_of_ne (ne_of_mem_of_not_mem hw hu) _ _
      rw [Function.update_self, hsame, map_add, add_right_comm]
    · have hmem : a ∈ rest := (List.mem_cons.mp ha).resolve_left fun he => hau he.symm
      rw [Function.update_of_ne hau, ih hrest hmem, add_assoc]

/-- What is passed on adds to the total. -/
theorem total_accumulate {nodes : List α} (hnodup : nodes.Nodup) {cs : List (α × M)}
    (hcs : ∀ c ∈ cs, c.1 ∈ nodes) (g : α → M) :
    total φ nodes (accumulate g cs) = total φ nodes g + (cs.map fun c => φ c.1 c.2).sum := by
  induction cs generalizing g with
  | nil => rw [accumulate_nil, List.map_nil, List.sum_nil, add_zero]
  | cons c cs ih =>
    rw [accumulate_cons, ih fun d hd => hcs d (List.mem_cons_of_mem _ hd),
      total_update hnodup (hcs c List.mem_cons_self), List.map_cons, List.sum_cons, add_assoc]

/-- The adjoint law of a node: it passes on exactly what it holds. -/
def Balanced (φ : α → M →+ K) (adjoint : α → M → List (α × M)) (u : α) : Prop :=
  ∀ m, φ u m = ((adjoint u m).map fun c => φ c.1 c.2).sum

/-- Processing balanced nodes keeps the total of the nodes that are left. -/
theorem total_sweep {adjoint : α → M → List (α × M)} {before rest : List α}
    (h : Forward adjoint (before ++ rest)) (hnodup : (before ++ rest).Nodup)
    (hbalanced : ∀ u ∈ before, Balanced φ adjoint u) (g : α → M) :
    total φ rest (sweep adjoint g before) = total φ (before ++ rest) g := by
  induction before generalizing g with
  | nil => rfl
  | cons u before ih =>
    have hrest : (before ++ rest).Nodup := (List.nodup_cons.mp hnodup).2
    show total φ rest (sweep adjoint (accumulate g (adjoint u (g u))) before) =
      φ u (g u) + total φ (before ++ rest) g
    rw [ih h.2 hrest fun v hv => hbalanced v (List.mem_cons_of_mem _ hv),
      total_accumulate hrest (h.1 _), hbalanced u List.mem_cons_self, add_comm]

/-- The pairing of a node's final cotangent is the total at the start, when every node
before it is balanced and no node after it is paired with anything. -/
theorem pairing_of_sweep {adjoint : α → M → List (α × M)} {before after : List α} {t : α}
    (h : Forward adjoint (before ++ t :: after)) (hnodup : (before ++ t :: after).Nodup)
    (hbalanced : ∀ u ∈ before, Balanced φ adjoint u) (hafter : ∀ u ∈ after, φ u = 0)
    (g : α → M) :
    φ t (sweep adjoint g (before ++ t :: after) t) = total φ (before ++ t :: after) g := by
  have htail : total φ after (sweep adjoint g before) = 0 := by
    refine List.sum_eq_zero fun x hx => ?_
    obtain ⟨u, hu, rfl⟩ := List.mem_map.mp hx
    rw [hafter u hu, AddMonoidHom.zero_apply]
  have hkeep := total_sweep h hnodup hbalanced g
  rw [sweep_eq_of_nodup h hnodup, ← hkeep]
  show _ = φ t (sweep adjoint g before t) + total φ after (sweep adjoint g before)
  rw [htail, add_zero]

end PythonPortfolio.Library.ReverseSweep
