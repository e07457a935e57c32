import PythonPortfolio.Synapse.Derivative
import PythonPortfolio.Synapse.Visits

/-!
# Two backward passes

`backward` sets the gradient of its root and clears no other one. A tensor between the
root and the leaves still holds the gradient of an earlier pass when a later one
reaches it, and passes it on again. So the later pass leaves at a leaf, besides what
it would leave alone and what was there before, the earlier gradients of these
tensors carried down to the leaf.
-/

namespace PythonPortfolio.Synapse

open Library Library.ReverseSweep Library.TablePairing Synapse.Matrix Finset

namespace Heap

variable {K : Type}

/-! ## The operands stay -/

theorem prev_backward [CommRing K] [LinearOrder K] {h h' : Heap K} {limit root : Nat}
    (hok : h.backward limit root = .ok h') : h'.prev = h.prev := by
  obtain ⟨topo, htopo⟩ := buildTopo_of_backward hok
  rw [backward, htopo] at hok
  rw [(Touches.sweep topo.reverse _ h' hok).prev]
  exact funext fun _ => prev_setGrad

/-! ## The passes -/

variable [CommRing K] [LinearOrder K] {h h' : Heap K} {t i j : Nat}

theorem tangent_of_not_reaches (hw : h.WellFormed) {root u p q : Nat}
    (hu : ¬TopoSort.Reaches h.prev root u) : h.tangent u p q root = 0 :=
  tangent_eq_zero hw (fun _ hv _ ha => hv.tail (hw.mem_prev.mpr ha)) hu .refl

/-- A pass from a graph without gradients leaves the derivatives of its root, and zero
where the root does not depend on the tensor. -/
theorem backward_alone (hw : h.WellFormed) {limit root : Nat} (hroot : h.HasShape root 1 1)
    (hok : h.backward limit root = .ok h') :
    ∃ g, Matches h h' g ∧ (∀ u, TopoSort.Reaches h.prev root u → (h'.grad u).isSome = true) ∧
      ∀ u r c, h.HasShape u r c → ∀ p < r, ∀ q < c, g u p q = h.tangent u p q root 0 0 := by
  obtain ⟨topo, htopo⟩ := buildTopo_of_backward hok
  have hsorted := buildTopo_sorted hw htopo
  obtain ⟨h'', hok'', hm, hset⟩ := backward_ok hw (matches_unset hw) hroot hsorted htopo
  obtain rfl := Except.ok.inj (hok.symm.trans hok'')
  refine ⟨_, hm, fun u hu => hset u ((hsorted.mem u).mpr hu), fun u r c hs p hp q hq => ?_⟩
  by_cases hu : u ∈ topo
  · exact sweep_eq_tangent hw hsorted hroot hu hs hp hq
  · have hreach : ¬TopoSort.Reaches h.prev root u := fun hr => hu ((hsorted.mem u).mpr hr)
    have hne : u ≠ root := fun he => hreach (he ▸ .refl)
    rw [sweep_of_not_mem (hsorted.forward hw) (fun hmem => hu (List.mem_reverse.mp hmem)), seeded,
      Function.update_of_ne hne, tangent_of_not_reaches hw hreach]
    rfl

/-- The derivative of `r₁` by `u`, carried on to entry `(i, j)` of `t`. -/
def carried (h : Heap K) (r₁ t i j u : Nat) : K :=
  dot (h.rows u) (h.cols u) (fun p q => h.tangent u p q r₁ 0 0) (h.tangent t i j u)

/-- The tensors between `r₂` and the leaves. -/
def Between (h : Heap K) (r₂ u : Nat) : Prop :=
  TopoSort.Reaches h.prev r₂ u ∧ u ≠ r₂ ∧ h.ctx u ≠ .leaf

open Classical in
/-- What a pass from `r₂` passes on to `t` again of the gradients that a pass from `r₁`
has left. -/
noncomputable def stale (h : Heap K) (r₁ r₂ t i j : Nat) : K :=
  ∑ u ∈ (range h.length).filter (h.Between r₂), h.carried r₁ t i j u

theorem le_of_reaches (hw : h.WellFormed) {root u : Nat} (hu : TopoSort.Reaches h.prev root u) :
    u ≤ root := by
  induction hu with
  | refl => exact le_refl _
  | tail _ hmem ih => exact (hw.prev_lt _ _ hmem).le.trans ih

/-- Of the leaves, only `t` itself carries anything to `t`. -/
theorem carried_leaf (hw : h.WellFormed) {r₁ r c u : Nat} (hshape : h.HasShape t r c)
    (hi : i < r) (hj : j < c) (hleaf : h.ctx u = .leaf) :
    h.carried r₁ t i j u = if t = u then h.tangent t i j r₁ 0 0 else 0 := by
  by_cases hut : t = u
  · subst hut
    rw [if_pos rfl]
    exact pairing_self hshape hi hj _
  · rw [if_neg hut, carried, tangent_of_ne hw (Ne.symm hut), differential, hleaf]
    exact dot_zero _

/-- The gradients of the first pass that the second one still finds, carried on. -/
theorem sum_carried (hw : h.WellFormed) {r₁ r₂ r c : Nat} {topo : List Nat}
    (hs : Sorted h r₂ topo) (hroot : h.HasShape r₂ 1 1) (hshape : h.HasShape t r c) (hi : i < r)
    (hj : j < c) (hleaf : h.ctx t = .leaf) (ht : t ∈ topo) :
    ∑ u ∈ topo.toFinset.erase r₂, h.carried r₁ t i j u =
      (if t = r₂ then 0 else h.tangent t i j r₁ 0 0) + h.stale r₁ r₂ t i j := by
  classical
  have hbetween : (topo.toFinset.erase r₂).filter (fun u => ¬h.ctx u = .leaf) =
      (range h.length).filter (h.Between r₂) := by
    ext u
    simp only [mem_filter, mem_erase, List.mem_toFinset, mem_range, Between, hs.mem]
    constructor
    · intro hu
      exact ⟨(le_of_reaches hw hu.1.2).trans_lt hroot.lt, hu.1.2, hu.1.1, hu.2⟩
    · intro hu
      exact ⟨⟨hu.2.2.1, hu.2.1⟩, hu.2.2.2⟩
  rw [← sum_filter_add_sum_filter_not _ fun u => h.ctx u = .leaf, hbetween, stale]
  congr 1
  have hleaves : ∀ u ∈ (topo.toFinset.erase r₂).filter fun u => h.ctx u = .leaf,
      h.carried r₁ t i j u = if t = u then h.tangent t i j r₁ 0 0 else 0 :=
    fun u hu => carried_leaf hw hshape hi hj (mem_filter.mp hu).2
  rw [sum_congr rfl hleaves, sum_ite_eq]
  by_cases htr : t = r₂
  · rw [if_pos htr, if_neg]
    intro hmem
    exact (mem_erase.mp (mem_filter.mp hmem).1).1 htr
  · rw [if_neg htr, if_pos]
    exact mem_filter.mpr ⟨mem_erase.mpr ⟨htr, List.mem_toFinset.mpr ht⟩, hleaf⟩

/-- What a tensor that holds the derivatives of `r₁` contributes. -/
theorem pairing_eq_carried (hw : h.WellFormed) {r₁ u : Nat} (hu : u < h.length)
    {g : Nat → Nat → Nat → K} (hg : ∀ u r c, h.HasShape u r c → ∀ p < r, ∀ q < c,
      g u p q = h.tangent u p q r₁ 0 0) : h.pairing t i j u (g u) = h.carried r₁ t i j u := by
  obtain ⟨r, c, hs⟩ := hw.shaped u hu
  show dot (h.rows u) (h.cols u) (g u) (h.tangent t i j u) = _
  rw [carried, hs.rows_eq, hs.cols_eq]
  refine sum_congr rfl fun p hp => sum_congr rfl fun q hq => ?_
  rw [hg u r c hs p (mem_range.mp hp) q (mem_range.mp hq)]

/-- A second pass leaves at a leaf the derivative of its root, the gradient of the first
pass unless the leaf is that root, and the gradients of the first pass between them. -/
theorem backward_again (hw : h.WellFormed) {limit r₁ r₂ : Nat} {h₁ : Heap K}
    (hroot₁ : h.HasShape r₁ 1 1) (hroot₂ : h.HasShape r₂ 1 1)
    (hok₁ : h.backward limit r₁ = .ok h₁) (hok : h₁.backward limit r₂ = .ok h') :
    ∃ g, Matches h h' g ∧ (∀ u, TopoSort.Reaches h.prev r₂ u → (h'.grad u).isSome = true) ∧
      ∀ t r c, h.ctx t = .leaf → h.HasShape t r c → TopoSort.Reaches h.prev r₂ t →
        ∀ i < r, ∀ j < c, g t i j = h.tangent t i j r₂ 0 0 +
          ((if t = r₂ then 0 else h.tangent t i j r₁ 0 0) + h.stale r₁ r₂ t i j) := by
  obtain ⟨g₁, hm₁, _, hg₁⟩ := backward_alone hw hroot₁ hok₁
  obtain ⟨topo, htopo⟩ := buildTopo_of_backward hok
  have htopo' : h.buildTopo limit r₂ = .ok topo := by
    rw [buildTopo, ← prev_backward hok₁]
    exact htopo
  have hsorted := buildTopo_sorted hw htopo'
  obtain ⟨h'', hok'', hm, hset⟩ := backward_ok hw hm₁ hroot₂ hsorted htopo
  obtain rfl := Except.ok.inj (hok.symm.trans hok'')
  refine ⟨_, hm, fun u hu => hset u ((hsorted.mem u).mpr hu),
    fun t r c hleaf hshape hreach i hi j hj => ?_⟩
  have ht := (hsorted.mem t).mpr hreach
  have hr₂ : r₂ ∈ topo.toFinset := List.mem_toFinset.mpr ((hsorted.mem r₂).mpr .refl)
  have hseed : h.pairing t i j r₂ (seeded g₁ r₂ r₂) = h.tangent t i j r₂ 0 0 := by
    rw [seeded, Function.update_self, pairing_root hroot₂]
  have hrest : ∀ u ∈ topo.toFinset.erase r₂,
      h.pairing t i j u (seeded g₁ r₂ u) = h.carried r₁ t i j u := by
    intro u hu
    obtain ⟨hne, hmem⟩ := mem_erase.mp hu
    have hle := le_of_reaches hw ((hsorted.mem u).mp (List.mem_toFinset.mp hmem))
    rw [seeded, Function.update_of_ne hne]
    exact pairing_eq_carried hw (hle.trans_lt hroot₂.lt) hg₁
  calc
    _ = total (h.pairing t i j) topo.reverse (seeded g₁ r₂) :=
      sweep_eq_total hw hsorted ht hshape hi hj _
    _ = ∑ u ∈ topo.toFinset, h.pairing t i j u (seeded g₁ r₂ u) := by
      rw [total, ← List.sum_toFinset _ (List.nodup_reverse.mpr hsorted.nodup),
        List.toFinset_reverse]
    _ = h.tangent t i j r₂ 0 0 + ∑ u ∈ topo.toFinset.erase r₂, h.carried r₁ t i j u := by
      rw [← add_sum_erase _ _ hr₂, hseed, sum_congr rfl hrest]
    _ = _ := by rw [sum_carried hw hsorted hroot₂ hshape hi hj hleaf ht]

/-- Nothing is passed on that the first pass did not reach. -/
theorem stale_eq_zero (hw : h.WellFormed) {r₁ r₂ : Nat}
    (hapart : ∀ u, h.Between r₂ u → ¬TopoSort.Reaches h.prev r₁ u) :
    h.stale r₁ r₂ t i j = 0 := by
  classical
  refine sum_eq_zero fun u hu => ?_
  have hzero : (fun p q => h.tangent u p q r₁ 0 0) = 0 := by
    funext p q
    rw [tangent_of_not_reaches hw (hapart u (mem_filter.mp hu).2)]
    rfl
  rw [carried, hzero]
  exact map_zero (dotWith (h.rows u) (h.cols u) (h.tangent t i j u))

/-- There is nothing between a leaf and the leaves. -/
theorem not_between_leaf (hw : h.WellFormed) {r₂ u : Nat} (hleaf : h.ctx r₂ = .leaf) :
    ¬h.Between r₂ u := by
  intro hu
  obtain ⟨hreach, hne, _⟩ := hu
  rcases Relation.ReflTransGen.cases_head hreach with heq | ⟨w, hmem, _⟩
  · exact hne heq.symm
  · have hchild := hw.mem_prev.mp hmem
    rw [hleaf] at hchild
    cases hchild

/-- A leaf that both roots depend on. -/
structure CommonLeaf (h : Heap K) (r₁ r₂ t r c : Nat) : Prop where
  leaf : h.ctx t = .leaf
  shape : h.HasShape t r c
  first : TopoSort.Reaches h.prev r₁ t
  second : TopoSort.Reaches h.prev r₂ t

/-- At every common leaf the earlier gradients of the tensors in between carry nothing,
and a leaf that is the second root has no derivative to lose. -/
def NothingStale (h : Heap K) (r₁ r₂ : Nat) : Prop :=
  ∀ t r c, h.CommonLeaf r₁ r₂ t r c → ∀ i < r, ∀ j < c,
    h.stale r₁ r₂ t i j = 0 ∧ (t = r₂ → h.tangent t i j r₁ 0 0 = 0)

/-- Every common leaf holds in `h₁₂` the sum of its gradients in `h₁` and `h₂`. -/
def Adds (h h₁ h₂ h₁₂ : Heap K) (r₁ r₂ : Nat) : Prop :=
  ∀ t r c, h.CommonLeaf r₁ r₂ t r c → ∃ g₁ g₂ g, h₁.grad t = some g₁ ∧ h₂.grad t = some g₂ ∧
    h₁₂.grad t = some g ∧ Linalg.add g₁ g₂ = .ok g

omit [LinearOrder K] in
theorem add_eq_ok_iff {g₁ g₂ g : Matrix K} {r c : Nat} (h₁ : g₁.Shaped r c) (h₂ : g₂.Shaped r c)
    (hg : g.Shaped r c) (hr : 0 < r) : Linalg.add g₁ g₂ = .ok g ↔
      ∀ i < r, ∀ j < c, g.entry i j = g₁.entry i j + g₂.entry i j := by
  rw [Linalg.add_ok h₁ h₂ hr, Except.ok.injEq]
  constructor
  · intro heq i hi j hj
    rw [← heq, entry_ofFn _ hi hj]
  · intro hentries
    refine ext_entry (shaped_ofFn r c _) hg fun i hi j hj => ?_
    rw [entry_ofFn _ hi hj, hentries i hi j hj]

variable {r₁ r₂ : Nat}

/-- Within the limit, all three calls return. -/
theorem backward_returns (hw : h.WellFormed) (hroot₁ : h.HasShape r₁ 1 1)
    (hroot₂ : h.HasShape r₂ 1 1) {limit : Nat} (hlimit₁ : r₁ < limit) (hlimit₂ : r₂ < limit) :
    ∃ h₁ h₂ h₁₂, h.backward limit r₁ = .ok h₁ ∧ h.backward limit r₂ = .ok h₂ ∧
      h₁.backward limit r₂ = .ok h₁₂ := by
  obtain ⟨topo₁, htopo₁⟩ := buildTopo_ok hw hlimit₁
  obtain ⟨topo₂, htopo₂⟩ := buildTopo_ok hw hlimit₂
  have hsorted₂ := buildTopo_sorted hw htopo₂
  have hunset := matches_unset hw
  obtain ⟨h₁, hok₁, hm₁, _⟩ := backward_ok hw hunset hroot₁ (buildTopo_sorted hw htopo₁) htopo₁
  obtain ⟨h₂, hok₂, _, _⟩ := backward_ok hw hunset hroot₂ hsorted₂ htopo₂
  have htopo : h₁.buildTopo limit r₂ = .ok topo₂ := by
    rw [buildTopo, prev_backward hok₁]
    exact htopo₂
  obtain ⟨h₁₂, hok, _, _⟩ := backward_ok hw hm₁ hroot₂ hsorted₂ htopo
  exact ⟨h₁, h₂, h₁₂, hok₁, hok₂, hok⟩

/-- The sum at one entry of one leaf. -/
theorem entry_adds_iff (hw : h.WellFormed) {t r c i j : Nat}
    (hleaf : h.CommonLeaf r₁ r₂ t r c) :
    h.tangent t i j r₂ 0 0 +
        ((if t = r₂ then 0 else h.tangent t i j r₁ 0 0) + h.stale r₁ r₂ t i j) =
      h.tangent t i j r₁ 0 0 + h.tangent t i j r₂ 0 0 ↔
    h.stale r₁ r₂ t i j = 0 ∧ (t = r₂ → h.tangent t i j r₁ 0 0 = 0) := by
  rw [add_comm (h.tangent t i j r₁ 0 0), add_right_inj]
  by_cases htr : t = r₂
  · subst htr
    have hstale : h.stale r₁ t t i j = 0 :=
      stale_eq_zero hw fun u hu => absurd hu (not_between_leaf hw hleaf.leaf)
    rw [if_pos rfl, hstale, zero_add]
    simp [eq_comm]
  · rw [if_neg htr, add_eq_left]
    simp [htr]

/-- Three calls on one graph, and what they add up to. -/
theorem adds_iff (hw : h.WellFormed) (hroot₁ : h.HasShape r₁ 1 1) (hroot₂ : h.HasShape r₂ 1 1)
    {limit : Nat} {h₁ h₂ h₁₂ : Heap K} (hok₁ : h.backward limit r₁ = .ok h₁)
    (hok₂ : h.backward limit r₂ = .ok h₂) (hok : h₁.backward limit r₂ = .ok h₁₂) :
    Adds h h₁ h₂ h₁₂ r₁ r₂ ↔ NothingStale h r₁ r₂ := by
  obtain ⟨x₁, hm₁, hset₁, hx₁⟩ := backward_alone hw hroot₁ hok₁
  obtain ⟨x₂, hm₂, hset₂, hx₂⟩ := backward_alone hw hroot₂ hok₂
  obtain ⟨x, hm, hset, hx⟩ := backward_again hw hroot₁ hroot₂ hok₁ hok
  refine forall₄_congr fun t r c hleaf => ?_
  have hs := hleaf.shape
  obtain ⟨g₁, hg₁⟩ := Option.isSome_iff_exists.mp (hset₁ t hleaf.first)
  obtain ⟨g₂, hg₂⟩ := Option.isSome_iff_exists.mp (hset₂ t hleaf.second)
  obtain ⟨g, hg⟩ := Option.isSome_iff_exists.mp (hset t hleaf.second)
  have hgrads : (∃ g₁ g₂ g, h₁.grad t = some g₁ ∧ h₂.grad t = some g₂ ∧ h₁₂.grad t = some g ∧
      Linalg.add g₁ g₂ = .ok g) ↔ Linalg.add g₁ g₂ = .ok g := by
    simp only [hg₁, hg₂, hg, Option.some.injEq, exists_and_left, exists_eq_left']
  rw [hgrads, add_eq_ok_iff (hm₁.shaped t r c g₁ hs hg₁) (hm₂.shaped t r c g₂ hs hg₂)
    (hm.shaped t r c g hs hg) hs.rows]
  refine forall₄_congr fun i hi j hj => ?_
  have he₁ := hm₁.entries t r c hs i hi j hj
  have he₂ := hm₂.entries t r c hs i hi j hj
  have he := hm.entries t r c hs i hi j hj
  rw [gradEntry, hg₁, hx₁ t r c hs i hi j hj, Option.getD_some] at he₁
  rw [gradEntry, hg₂, hx₂ t r c hs i hi j hj, Option.getD_some] at he₂
  rw [gradEntry, hg, hx t r c hleaf.leaf hs hleaf.second i hi j hj, Option.getD_some] at he
  rw [he₁, he₂, he]
  exact entry_adds_iff hw hleaf

/-- Gradients add up over two calls of `backward` exactly when nothing stale is passed
on, as is the case when no tensor between the second root and the leaves belongs to the
graph of the first. -/
theorem backward_adds_iff (hb : Built h) (hroot₁ : h.HasShape r₁ 1 1)
    (hroot₂ : h.HasShape r₂ 1 1) :
    (∀ limit, r₁ < limit → r₂ < limit → ∃ h₁ h₂ h₁₂, h.backward limit r₁ = .ok h₁ ∧
      h.backward limit r₂ = .ok h₂ ∧ h₁.backward limit r₂ = .ok h₁₂) ∧
    (∀ limit h₁ h₂ h₁₂, h.backward limit r₁ = .ok h₁ → h.backward limit r₂ = .ok h₂ →
      h₁.backward limit r₂ = .ok h₁₂ → (Adds h h₁ h₂ h₁₂ r₁ r₂ ↔ NothingStale h r₁ r₂)) ∧
    ((∀ u, h.Between r₂ u → ¬TopoSort.Reaches h.prev r₁ u) →
      (h.ctx r₂ = .leaf → ¬TopoSort.Reaches h.prev r₁ r₂) → NothingStale h r₁ r₂) := by
  have hw := hb.wellFormed
  refine ⟨fun limit hlimit₁ hlimit₂ => backward_returns hw hroot₁ hroot₂ hlimit₁ hlimit₂,
    fun limit h₁ h₂ h₁₂ hok₁ hok₂ hok => adds_iff hw hroot₁ hroot₂ hok₁ hok₂ hok,
    fun hapart hroot t r c hleaf i _ j _ => ⟨stale_eq_zero hw hapart, fun htr => ?_⟩⟩
  subst htr
  exact absurd hleaf.first (hroot hleaf.leaf)

/-- First from `relu(x * x)`, then from `x * x` itself. -/
theorem backward_adds_reluSquare :
    ∃ h₁ h₂ h₁₂, reluSquare.backward 3 2 = .ok h₁ ∧ reluSquare.backward 3 1 = .ok h₂ ∧
      h₁.backward 3 1 = .ok h₁₂ ∧ Adds reluSquare h₁ h₂ h₁₂ 2 1 := by
  have hroot₁ : reluSquare.HasShape 2 1 1 := ⟨by decide, by decide, by decide, rfl, by decide⟩
  have hroot₂ : reluSquare.HasShape 1 1 1 := ⟨by decide, by decide, by decide, rfl, by decide⟩
  obtain ⟨hreturns, hiff, hapart⟩ := backward_adds_iff reluSquare_built hroot₁ hroot₂
  obtain ⟨h₁, h₂, h₁₂, hok₁, hok₂, hok⟩ := hreturns 3 (by decide) (by decide)
  refine ⟨h₁, h₂, h₁₂, hok₁, hok₂, hok, (hiff 3 h₁ h₂ h₁₂ hok₁ hok₂ hok).mpr ?_⟩
  refine hapart (fun u hu => ?_) (fun hleaf => absurd hleaf (by decide))
  obtain ⟨hreach, hne, hinner⟩ := hu
  have hle := le_of_reaches reluSquare_built.wellFormed hreach
  obtain rfl : u = 0 := by omega
  exact absurd rfl hinner

/-- Two calls from `relu(x * x)` at `x = 2` leave 12 at `x`, not twice 4. -/
theorem backward_twice_not_double : ¬ ∀ (h : Heap ℚ), Built h → ∀ r₁ r₂, h.HasShape r₁ 1 1 →
    h.HasShape r₂ 1 1 → ∀ limit h₁ h₂ h₁₂, h.backward limit r₁ = .ok h₁ →
      h.backward limit r₂ = .ok h₂ → h₁.backward limit r₂ = .ok h₁₂ →
        Adds h h₁ h₂ h₁₂ r₁ r₂ := by
  intro hall
  have hroot : reluSquare.HasShape 2 1 1 := ⟨by decide, by decide, by decide, rfl, by decide⟩
  have hleaf : reluSquare.HasShape 0 1 1 := ⟨by decide, by decide, by decide, rfl, by decide⟩
  have hreach : TopoSort.Reaches reluSquare.prev 2 0 :=
    .tail (.single (by decide : 1 ∈ reluSquare.prev 2)) (by decide : 0 ∈ reluSquare.prev 1)
  have hfirst : reluSquare.backward 3 2 = .ok [⟨[[2]], some [[4]], .leaf, []⟩,
      ⟨[[4]], some [[1]], .mul 0 0, [0]⟩, ⟨[[4]], some [[1]], .relu 1, [1]⟩] := by
    decide +kernel
  have hsecond : Heap.backward (K := ℚ) [⟨[[2]], some [[4]], .leaf, []⟩,
      ⟨[[4]], some [[1]], .mul 0 0, [0]⟩, ⟨[[4]], some [[1]], .relu 1, [1]⟩] 3 2 =
      .ok [⟨[[2]], some [[12]], .leaf, []⟩,
        ⟨[[4]], some [[2]], .mul 0 0, [0]⟩, ⟨[[4]], some [[1]], .relu 1, [1]⟩] := by
    decide +kernel
  obtain ⟨g₁, g₂, g, hg₁, hg₂, hg, hadd⟩ :=
    hall reluSquare reluSquare_built 2 2 hroot hroot 3 _ _ _ hfirst hfirst hsecond 0 1 1
      ⟨rfl, hleaf, hreach, hreach⟩
  obtain rfl : [[4]] = g₁ := Option.some.inj hg₁
  obtain rfl : [[4]] = g₂ := Option.some.inj hg₂
  obtain rfl : [[12]] = g := Option.some.inj hg
  exact absurd hadd (by decide +kernel)

end Heap

end PythonPortfolio.Synapse
