import PythonPortfolio.Library.Propagate
import PythonPortfolio.Library.TablePairing
import PythonPortfolio.Synapse.Sweep

/-!
# Gradients by the chain rule

`tangent` carries a unit change of one entry forward through the graph, operation by
operation. The closures apply the transposes, so the gradient the sweep leaves at an
entry is the tangent of the root for that entry.
-/

namespace PythonPortfolio.Synapse

open Library Library.ReverseSweep Library.Propagate Library.TablePairing Synapse.Matrix Finset

namespace Heap

variable {K : Type} [CommRing K] [LinearOrder K]

/-- The change of a result when its operands change by `x`. -/
def differential (h : Heap K) (u : Nat) (x : Nat → Nat → Nat → K) : Nat → Nat → K :=
  match h.ctx u with
  | .leaf => 0
  | .add a b => x a + x b
  | .mul a b => h.entries b * x a + h.entries a * x b
  | .matmul a b =>
    (fun i j => ∑ k ∈ range (h.cols a), x a i k * h.entries b k j) +
      fun i j => ∑ k ∈ range (h.cols a), h.entries a i k * x b k j
  | .relu a => (fun i j => gate (h.entries a i j)) * x a
  | .sum a => fun _ _ => ∑ i ∈ range (h.rows a), ∑ j ∈ range (h.cols a), x a i j

/-- The change of every tensor for a unit change of entry `(i, j)` of `t`. -/
def tangent (h : Heap K) (t i j : Nat) : Nat → Nat → Nat → K :=
  propagate h.differential t (single i j)

variable {h : Heap K} {t i j u : Nat}

theorem differential_congr {x x' : Nat → Nat → Nat → K}
    (hx : ∀ a ∈ (h.ctx u).children, x a = x' a) : h.differential u x = h.differential u x' := by
  unfold differential
  cases hctx : h.ctx u with
  | leaf => rfl
  | add a b | mul a b | matmul a b =>
    rw [hctx] at hx
    have ha : x a = x' a := hx a List.mem_cons_self
    have hb : x b = x' b := hx b (List.mem_cons_of_mem _ List.mem_cons_self)
    simp only [ha, hb]
  | relu a | sum a =>
    rw [hctx] at hx
    have ha : x a = x' a := hx a List.mem_cons_self
    simp only [ha]

theorem differential_zero : h.differential u (fun _ => 0) = 0 := by
  unfold differential
  cases h.ctx u with
  | leaf => rfl
  | add a b => exact add_zero 0
  | mul a b => simp
  | matmul a b =>
    funext p q
    simp
  | relu a => simp
  | sum a =>
    funext p q
    simp

theorem local_differential (hw : h.WellFormed) :
    Local h.differential fun u => (h.ctx u).children :=
  ⟨hw.older, fun _ _ _ hx => differential_congr hx⟩

theorem tangent_of_ne (hw : h.WellFormed) (hu : u ≠ t) :
    h.tangent t i j u = h.differential u (h.tangent t i j) :=
  propagate_of_ne (local_differential hw) hu

/-- Tensors that do not depend on `t` do not change. -/
theorem tangent_eq_zero (hw : h.WellFormed) {nodes : Nat → Prop}
    (hnodes : ∀ u, nodes u → ∀ a ∈ (h.ctx u).children, nodes a) (ht : ¬nodes t) (hu : nodes u) :
    h.tangent t i j u = 0 := by
  refine propagate_induction (P := fun _ x => x = 0) (local_differential hw) hnodes
    (fun h => absurd h ht) (fun u _ _ x hx => ?_) u hu
  rw [differential_congr hx, differential_zero]

/-! ## The closures are the transposes -/

/-- The pairing of a gradient of `u` with its tangent. -/
def pairing (h : Heap K) (t i j u : Nat) : (Nat → Nat → K) →+ K :=
  dotWith (h.rows u) (h.cols u) (h.tangent t i j u)

theorem balanced (hw : h.WellFormed) (hu : u ≠ t) :
    Balanced (h.pairing t i j) h.adjoint u := by
  intro m
  show dot (h.rows u) (h.cols u) m (h.tangent t i j u) =
    ((h.adjoint u m).map fun c => dot (h.rows c.1) (h.cols c.1) c.2 (h.tangent t i j c.1)).sum
  rw [tangent_of_ne hw hu]
  generalize h.tangent t i j = x
  by_cases hleaf : h.ctx u = .leaf
  · rw [differential, adjoint, hleaf]
    exact dot_zero m
  obtain ⟨r, c, hs, ht, _⟩ := hw.computed u hleaf
  rw [hs.rows_eq, hs.cols_eq]
  generalize hctx : h.ctx u = op at ht
  cases ht with
  | add ha hb =>
    simp only [differential, adjoint, hctx, List.map_cons, List.map_nil, List.sum_cons,
      List.sum_nil, add_zero, ha.rows_eq, ha.cols_eq, hb.rows_eq, hb.cols_eq]
    exact dot_add m _ _
  | mul ha hb =>
    simp only [differential, adjoint, hctx, List.map_cons, List.map_nil, List.sum_cons,
      List.sum_nil, add_zero, ha.rows_eq, ha.cols_eq, hb.rows_eq, hb.cols_eq]
    rw [dot_add, dot_scale, dot_scale]
    rfl
  | matmul ha hb =>
    simp only [differential, adjoint, hctx, List.map_cons, List.map_nil, List.sum_cons,
      List.sum_nil, add_zero, ha.rows_eq, ha.cols_eq, hb.rows_eq, hb.cols_eq]
    rw [dot_add, dot_mul_right, dot_mul_left]
  | relu ha =>
    simp only [differential, adjoint, hctx, List.map_cons, List.map_nil, List.sum_cons,
      List.sum_nil, add_zero, ha.rows_eq, ha.cols_eq]
    exact dot_scale m _ _
  | sum ha =>
    simp only [differential, adjoint, hctx, List.map_cons, List.map_nil, List.sum_cons,
      List.sum_nil, add_zero, ha.rows_eq, ha.cols_eq]
    exact dot_total m _

theorem pairing_self {r c : Nat} (hshape : h.HasShape t r c) (hi : i < r) (hj : j < c)
    (m : Nat → Nat → K) : h.pairing t i j t m = m i j := by
  show dot (h.rows t) (h.cols t) m (h.tangent t i j t) = m i j
  rw [hshape.rows_eq, hshape.cols_eq, tangent, propagate_self]
  exact dot_single m hi hj

theorem pairing_root {root : Nat} (hroot : h.HasShape root 1 1) :
    h.pairing t i j root (fun _ _ => 1) = h.tangent t i j root 0 0 := by
  show dot (h.rows root) (h.cols root) (fun _ _ => 1) (h.tangent t i j root) = _
  rw [hroot.rows_eq, hroot.cols_eq]
  simp [dot]

/-- The pairings at the start add up to the tangent of the root. -/
theorem total_seeded {root : Nat} (hroot : h.HasShape root 1 1) {nodes : List Nat}
    (hnodup : nodes.Nodup) (hmem : root ∈ nodes) :
    total (h.pairing t i j) nodes (seeded 0 root) = h.tangent t i j root 0 0 := by
  have hzero : total (h.pairing t i j) nodes 0 = 0 := by
    refine List.sum_eq_zero fun x hx => ?_
    obtain ⟨u, _, rfl⟩ := List.mem_map.mp hx
    exact map_zero _
  have hupdate := total_update (φ := h.pairing t i j) hnodup hmem 0 fun _ _ => 1
  rw [Pi.zero_apply, zero_add, hzero, zero_add] at hupdate
  rw [seeded, hupdate, pairing_root hroot]

/-- Whatever the gradients at the start, the sweep leaves at each entry their total
pairing with the tangents for it. -/
theorem sweep_eq_total (hw : h.WellFormed) {root r c : Nat} {topo : List Nat}
    (hs : Sorted h root topo) (ht : t ∈ topo) (hshape : h.HasShape t r c) (hi : i < r)
    (hj : j < c) (g : Nat → Nat → Nat → K) :
    sweep h.adjoint g topo.reverse t i j = total (h.pairing t i j) topo.reverse g := by
  obtain ⟨before, after, hsplit⟩ := List.append_of_mem (List.mem_reverse.mpr ht)
  have hclosed : ∀ u ∈ after, ∀ a ∈ (h.ctx u).children, a ∈ after :=
    fun u hu a ha => hs.ordered.closed_after hsplit hu (hw.mem_prev.mpr ha)
  have hforward := hs.forward hw
  have hnodup : topo.reverse.Nodup := List.nodup_reverse.mpr hs.nodup
  rw [hsplit] at hforward hnodup ⊢
  have hnot : t ∉ after := (List.nodup_cons.mp (List.nodup_append.mp hnodup).2.1).1
  have hbalanced : ∀ u ∈ before, Balanced (h.pairing t i j) h.adjoint u := by
    intro u hu
    refine balanced hw fun hut => ?_
    exact (List.nodup_append.mp hnodup).2.2 u hu t List.mem_cons_self hut
  -- what comes after `t` does not depend on it
  have hafter : ∀ u ∈ after, h.pairing t i j u = 0 := by
    intro u hu
    ext m
    show dot (h.rows u) (h.cols u) m (h.tangent t i j u) = 0
    rw [tangent_eq_zero hw hclosed hnot hu]
    exact dot_zero m
  calc
    _ = h.pairing t i j t (sweep h.adjoint g (before ++ t :: after) t) :=
      (pairing_self hshape hi hj _).symm
    _ = total (h.pairing t i j) (before ++ t :: after) g :=
      pairing_of_sweep hforward hnodup hbalanced hafter _

/-- With 1 at the root and nothing elsewhere, that is the tangent of the root. -/
theorem sweep_eq_tangent (hw : h.WellFormed) {root r c : Nat} {topo : List Nat}
    (hs : Sorted h root topo) (hroot : h.HasShape root 1 1) (ht : t ∈ topo)
    (hshape : h.HasShape t r c) (hi : i < r) (hj : j < c) :
    sweep h.adjoint (seeded 0 root) topo.reverse t i j = h.tangent t i j root 0 0 := by
  rw [sweep_eq_total hw hs ht hshape hi hj]
  exact total_seeded hroot (List.nodup_reverse.mpr hs.nodup)
    (List.mem_reverse.mpr ((hs.mem root).mpr .refl))

end Heap

end PythonPortfolio.Synapse
