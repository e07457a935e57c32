import Mathlib
import PythonPortfolio.Synapse.Gradient

/-!
# Gradients are derivatives

`valueAt` recomputes the graph with one entry of one tensor replaced. Away from zero
inputs of `relu` it is differentiable at the value the entry has, and its derivative is
the tangent. At zero the tangent takes the derivative of `relu` to be 0.
-/

namespace PythonPortfolio.Synapse

open Library Library.Propagate Library.TablePairing Finset

namespace Heap

section Recompute

variable {K : Type} [CommRing K] [LinearOrder K]

/-- The entries of `u` from those of its operands; leaves keep theirs. -/
def recompute (h : Heap K) (u : Nat) (x : Nat → Nat → Nat → K) : Nat → Nat → K :=
  if h.ctx u = .leaf then h.entries u else combine h.rows h.cols x (h.ctx u)

def replaceEntry (m : Nat → Nat → K) (i j : Nat) (x : K) : Nat → Nat → K :=
  fun p q => if p = i ∧ q = j then x else m p q

/-- The entries of every tensor when entry `(i, j)` of `t` is `x` instead. -/
def valueAt (h : Heap K) (t i j : Nat) (x : K) : Nat → Nat → Nat → K :=
  propagate h.recompute t (replaceEntry (h.entries t) i j x)

variable {h : Heap K} {t i j u : Nat}

theorem local_recompute (hw : h.WellFormed) : Local h.recompute fun u => (h.ctx u).children := by
  refine ⟨hw.older, fun u x x' hx => ?_⟩
  unfold recompute
  rw [combine_congr fun a ha => ⟨rfl, rfl, hx a ha⟩]

theorem valueAt_of_ne (hw : h.WellFormed) (hu : u ≠ t) (x : K) :
    h.valueAt t i j x u = h.recompute u (h.valueAt t i j x) :=
  propagate_of_ne (local_recompute hw) hu

/-- `x` has the entries of the heap. -/
def Agrees (h : Heap K) (u : Nat) (x : Nat → Nat → K) : Prop :=
  ∀ r c, h.HasShape u r c → ∀ p < r, ∀ q < c, x p q = h.entries u p q

/-- A result computed from the entries of its operands has its own. -/
theorem agrees_recompute (hw : h.WellFormed) {x : Nat → Nat → Nat → K}
    (hx : ∀ a ∈ (h.ctx u).children, h.Agrees a (x a)) : h.Agrees u (h.recompute u x) := by
  intro r c hshape p hp q hq
  by_cases hleaf : h.ctx u = .leaf
  · rw [recompute, if_pos hleaf]
  obtain ⟨r', c', hs, ht, hentries⟩ := hw.computed u hleaf
  obtain ⟨rfl, rfl⟩ := hs.unique hshape
  rw [recompute, if_neg hleaf, hentries p hp q hq, value]
  generalize h.ctx u = op at ht hx
  cases ht with
  | add ha hb =>
    have hax := hx _ List.mem_cons_self _ _ ha p hp q hq
    have hbx := hx _ (List.mem_cons_of_mem _ List.mem_cons_self) _ _ hb p hp q hq
    simp only [combine, hax, hbx]
  | mul ha hb =>
    have hax := hx _ List.mem_cons_self _ _ ha p hp q hq
    have hbx := hx _ (List.mem_cons_of_mem _ List.mem_cons_self) _ _ hb p hp q hq
    simp only [combine, hax, hbx]
  | matmul ha hb =>
    refine sum_congr rfl fun k hk => ?_
    rw [ha.cols_eq, mem_range] at hk
    rw [hx _ List.mem_cons_self _ _ ha p hp k hk,
      hx _ (List.mem_cons_of_mem _ List.mem_cons_self) _ _ hb k hk q hq]
  | relu ha =>
    simp only [combine, hx _ List.mem_cons_self _ _ ha p hp q hq]
  | sum ha =>
    simp only [combine, ha.rows_eq, ha.cols_eq]
    refine sum_congr rfl fun p' hp' => sum_congr rfl fun q' hq' => ?_
    exact hx _ List.mem_cons_self _ _ ha p' (mem_range.mp hp') q' (mem_range.mp hq')

/-- With the entry as it is, nothing changes. -/
theorem valueAt_self (hw : h.WellFormed) (u : Nat) :
    h.Agrees u (h.valueAt t i j (h.entries t i j) u) := by
  have hnodes : ∀ u, True → ∀ a ∈ (h.ctx u).children, True := fun _ _ _ _ => trivial
  refine propagate_induction (P := h.Agrees) (local_recompute hw) hnodes
    (fun _ r c _ p _ q _ => ?_) (fun u _ _ x hx => agrees_recompute hw hx) u trivial
  by_cases hpq : p = i ∧ q = j
  · obtain ⟨rfl, rfl⟩ := hpq
    rw [replaceEntry, if_pos ⟨rfl, rfl⟩]
  · rw [replaceEntry, if_neg hpq]

/-- What does not depend on `t` has operands that do not. -/
theorem operands_not_reach (hw : h.WellFormed) :
    ∀ u, ¬TopoSort.Reaches h.prev u t → ∀ a ∈ (h.ctx u).children, ¬TopoSort.Reaches h.prev a t :=
  fun _ hu _ ha hreach => hu (.head (hw.mem_prev.mpr ha) hreach)

/-- A tensor that does not depend on `t` keeps its entries. -/
theorem valueAt_const (hw : h.WellFormed) (hu : ¬TopoSort.Reaches h.prev u t) (x x' : K) :
    h.valueAt t i j x u = h.valueAt t i j x' u := by
  refine propagate_induction (P := fun u y => y = h.valueAt t i j x' u) (local_recompute hw)
    (operands_not_reach hw) (fun ht => absurd .refl ht) (fun u _ hut y hy => ?_) u hu
  rw [valueAt_of_ne hw hut]
  exact (local_recompute hw).reads u _ _ hy

/-- No `relu` on the way from `t` to the root has a zero input. -/
def Smooth (h : Heap K) (root t : Nat) : Prop :=
  ∀ u a, TopoSort.Reaches h.prev root u → h.ctx u = .relu a → TopoSort.Reaches h.prev a t →
    ∀ r c, h.HasShape a r c → ∀ p < r, ∀ q < c, h.entries a p q ≠ 0

end Recompute

/-! ## The derivative -/

variable {K : Type} [NontriviallyNormedField K] [LinearOrder K]

/-- Entry `(p, q)` of `u` has the tangent as derivative. -/
def HasTangent (h : Heap K) (t i j u p q : Nat) : Prop :=
  HasDerivAt (fun x => h.valueAt t i j x u p q) (h.tangent t i j u p q) (h.entries t i j)

variable {h : Heap K} {t i j u p q a b r c k : Nat}

theorem hasTangent_seed : h.HasTangent t i j t p q := by
  have hvalue (x : K) : h.valueAt t i j x t p q = replaceEntry (h.entries t) i j x p q := by
    rw [valueAt, propagate_self]
  have htangent : h.tangent t i j t p q = single i j p q := by rw [tangent, propagate_self]
  unfold HasTangent
  simp only [hvalue, htangent, replaceEntry, single]
  by_cases hpq : p = i ∧ q = j
  · simp only [if_pos hpq]
    exact hasDerivAt_id _
  · simp only [if_neg hpq]
    exact hasDerivAt_const _ _

section Operations

variable (hw : h.WellFormed) (hu : u ≠ t)

include hw hu

theorem valueAt_operation {op : Ctx} (hctx : h.ctx u = op) (hop : op ≠ .leaf) (x : K) :
    h.valueAt t i j x u = combine h.rows h.cols (h.valueAt t i j x) op := by
  rw [valueAt_of_ne hw hu, recompute, hctx, if_neg hop]

theorem hasTangent_leaf (hctx : h.ctx u = .leaf) : h.HasTangent t i j u p q := by
  have hvalue (x : K) : h.valueAt t i j x u p q = h.entries u p q := by
    rw [valueAt_of_ne hw hu, recompute, if_pos hctx]
  unfold HasTangent
  simp only [hvalue, tangent_of_ne hw hu, differential, hctx]
  exact hasDerivAt_const _ _

theorem hasTangent_add (hctx : h.ctx u = .add a b) (ha : h.HasTangent t i j a p q)
    (hb : h.HasTangent t i j b p q) : h.HasTangent t i j u p q := by
  unfold HasTangent
  simp only [valueAt_operation hw hu hctx nofun, combine, tangent_of_ne hw hu, differential, hctx]
  exact HasDerivAt.add ha hb

theorem hasTangent_mul (hctx : h.ctx u = .mul a b) (hs : h.HasShape a r c) (hs' : h.HasShape b r c)
    (hp : p < r) (hq : q < c) (ha : h.HasTangent t i j a p q) (hb : h.HasTangent t i j b p q) :
    h.HasTangent t i j u p q := by
  unfold HasTangent
  simp only [valueAt_operation hw hu hctx nofun, combine, tangent_of_ne hw hu, differential, hctx]
  refine (HasDerivAt.mul ha hb).congr_deriv ?_
  rw [valueAt_self hw a r c hs p hp q hq, valueAt_self hw b r c hs' p hp q hq]
  show _ = h.entries b p q * h.tangent t i j a p q + h.entries a p q * h.tangent t i j b p q
  ring

theorem hasTangent_matmul (hctx : h.ctx u = .matmul a b) (hs : h.HasShape a r k)
    (hs' : h.HasShape b k c) (hp : p < r) (hq : q < c)
    (ha : ∀ l < k, h.HasTangent t i j a p l) (hb : ∀ l < k, h.HasTangent t i j b l q) :
    h.HasTangent t i j u p q := by
  unfold HasTangent
  simp only [valueAt_operation hw hu hctx nofun, combine, tangent_of_ne hw hu, differential, hctx]
  refine (HasDerivAt.fun_sum fun l hl => ?_).congr_deriv sum_add_distrib
  rw [hs.cols_eq, mem_range] at hl
  refine (HasDerivAt.mul (ha l hl) (hb l hl)).congr_deriv ?_
  rw [valueAt_self hw a r k hs p hp l hl, valueAt_self hw b k c hs' l hl q hq]

theorem hasTangent_sum (hctx : h.ctx u = .sum a) (hs : h.HasShape a r c)
    (ha : ∀ p < r, ∀ q < c, h.HasTangent t i j a p q) : h.HasTangent t i j u p q := by
  unfold HasTangent
  simp only [valueAt_operation hw hu hctx nofun, combine, tangent_of_ne hw hu, differential, hctx,
    hs.rows_eq, hs.cols_eq]
  refine HasDerivAt.fun_sum fun p hp => HasDerivAt.fun_sum fun q hq => ?_
  exact ha p (mem_range.mp hp) q (mem_range.mp hq)

/-- A `relu` of something that does not change. -/
theorem hasTangent_relu_const (hctx : h.ctx u = .relu a)
    (ha : ¬TopoSort.Reaches h.prev a t) : h.HasTangent t i j u p q := by
  have hvalue (x : K) : h.valueAt t i j x a = h.valueAt t i j 0 a := valueAt_const hw ha x 0
  have htangent : h.tangent t i j a = 0 :=
    tangent_eq_zero hw (operands_not_reach hw) (fun ht => absurd .refl ht) ha
  unfold HasTangent
  simp only [valueAt_operation hw hu hctx nofun, combine, tangent_of_ne hw hu, differential, hctx,
    hvalue, htangent, mul_zero]
  exact hasDerivAt_const _ _

/-- Near a nonzero input `relu` is the identity or zero. -/
theorem hasTangent_relu [OrderClosedTopology K] (hctx : h.ctx u = .relu a) (hs : h.HasShape a r c)
    (hp : p < r) (hq : q < c) (hne : h.entries a p q ≠ 0) (ha : h.HasTangent t i j a p q) :
    h.HasTangent t i j u p q := by
  unfold HasTangent
  simp only [valueAt_operation hw hu hctx nofun, combine, tangent_of_ne hw hu, differential, hctx]
  have hself := valueAt_self (t := t) (i := i) (j := j) hw a r c hs p hp q hq
  have hcont : ContinuousAt (fun x => h.valueAt t i j x a p q) (h.entries t i j) :=
    HasDerivAt.continuousAt ha
  rcases lt_or_gt_of_ne hne with hneg | hpos
  · have hgate : gate (h.entries a p q) = 0 := if_neg hneg.not_gt
    have hnear : ∀ᶠ x in nhds (h.entries t i j), h.valueAt t i j x a p q < 0 :=
      hcont.eventually_lt continuousAt_const (by rw [hself]; exact hneg)
    show HasDerivAt _ (gate (h.entries a p q) * h.tangent t i j a p q) _
    rw [hgate, zero_mul]
    refine (hasDerivAt_const _ 0).congr_of_eventuallyEq (hnear.mono fun x hx => ?_)
    exact max_eq_left hx.le
  · have hgate : gate (h.entries a p q) = 1 := if_pos hpos
    have hnear : ∀ᶠ x in nhds (h.entries t i j), 0 < h.valueAt t i j x a p q :=
      continuousAt_const.eventually_lt hcont (by rw [hself]; exact hpos)
    show HasDerivAt _ (gate (h.entries a p q) * h.tangent t i j a p q) _
    rw [hgate, one_mul]
    refine HasDerivAt.congr_of_eventuallyEq ha (hnear.mono fun x hx => ?_)
    exact max_eq_right hx.le

end Operations

/-- Where no `relu` input vanishes, every tensor the root depends on is differentiable in
every entry, with the tangent as derivative. -/
theorem hasTangent [OrderClosedTopology K] (hw : h.WellFormed) {root : Nat}
    (hsmooth : h.Smooth root t) :
    ∀ u, TopoSort.Reaches h.prev root u → ∀ r c, h.HasShape u r c → ∀ p < r, ∀ q < c,
      h.HasTangent t i j u p q := by
  intro u
  induction u using Nat.strongRecOn with
  | ind u ih =>
    intro hreach r c hs p hp q hq
    by_cases hu : u = t
    · subst hu
      exact hasTangent_seed
    by_cases hleaf : h.ctx u = .leaf
    · exact hasTangent_leaf hw hu hleaf
    obtain ⟨r', c', hs', ht, _⟩ := hw.computed u hleaf
    obtain ⟨rfl, rfl⟩ := hs.unique hs'
    have ih' : ∀ a ∈ (h.ctx u).children, ∀ r c, h.HasShape a r c → ∀ p < r, ∀ q < c,
        h.HasTangent t i j a p q :=
      fun a ha => ih a (hw.older u a ha) (hreach.tail (hw.mem_prev.mpr ha))
    generalize hctx : h.ctx u = op at ht ih'
    cases ht with
    | add ha hb =>
      exact hasTangent_add hw hu hctx (ih' _ List.mem_cons_self _ _ ha p hp q hq)
        (ih' _ (List.mem_cons_of_mem _ List.mem_cons_self) _ _ hb p hp q hq)
    | mul ha hb =>
      exact hasTangent_mul hw hu hctx ha hb hp hq (ih' _ List.mem_cons_self _ _ ha p hp q hq)
        (ih' _ (List.mem_cons_of_mem _ List.mem_cons_self) _ _ hb p hp q hq)
    | matmul ha hb =>
      exact hasTangent_matmul hw hu hctx ha hb hp hq
        (fun l hl => ih' _ List.mem_cons_self _ _ ha p hp l hl)
        (fun l hl => ih' _ (List.mem_cons_of_mem _ List.mem_cons_self) _ _ hb l hl q hq)
    | @relu a _ _ ha =>
      by_cases hat : TopoSort.Reaches h.prev a t
      · exact hasTangent_relu hw hu hctx ha hp hq (hsmooth u a hreach hctx hat _ _ ha p hp q hq)
          (ih' _ List.mem_cons_self _ _ ha p hp q hq)
      · exact hasTangent_relu_const hw hu hctx hat
    | sum ha =>
      exact hasTangent_sum hw hu hctx ha fun p hp q hq =>
        ih' _ List.mem_cons_self _ _ ha p hp q hq

/-! ## The backward pass -/

/-- `root.backward()` on a graph without gradients: given the depth it needs it returns,
and whenever it returns, every tensor the root depends on has a gradient of its shape
whose entries are the derivatives of the root. -/
theorem backward_gradients [OrderClosedTopology K] (hb : Built h) {root : Nat}
    (hroot : h.HasShape root 1 1) :
    (∀ limit, root < limit → ∃ h', h.backward limit root = .ok h') ∧
      ∀ limit h', h.backward limit root = .ok h' →
        ∀ t r c, TopoSort.Reaches h.prev root t → h.HasShape t r c →
          ∃ g, h'.grad t = some g ∧ g.Shaped r c ∧ ∀ i < r, ∀ j < c,
            g.entry i j = h.tangent t i j root 0 0 ∧
              (h.Smooth root t →
                HasDerivAt (fun x => h.valueAt t i j x root 0 0) (g.entry i j)
                  (h.entries t i j)) := by
  have hw := hb.wellFormed
  have hm := matches_unset hw
  refine ⟨fun limit hlimit => ?_, fun limit h' hok t r c hreach hshape => ?_⟩
  · obtain ⟨topo, htopo⟩ := buildTopo_ok hw hlimit
    obtain ⟨h', hok, _⟩ := backward_ok hw hm hroot (buildTopo_sorted hw htopo) htopo
    exact ⟨h', hok⟩
  · obtain ⟨topo, htopo⟩ := buildTopo_of_backward hok
    have hsorted := buildTopo_sorted hw htopo
    obtain ⟨h'', hok'', hm'', hset⟩ := backward_ok hw hm hroot hsorted htopo
    obtain rfl := Except.ok.inj (hok.symm.trans hok'')
    have hmem : t ∈ topo := (hsorted.mem t).mpr hreach
    obtain ⟨g, hg⟩ := Option.isSome_iff_exists.mp (hset t hmem)
    refine ⟨g, hg, hm''.shaped t r c g hshape hg, fun i hi j hj => ?_⟩
    have hentry : g.entry i j = h.tangent t i j root 0 0 := by
      rw [← sweep_eq_tangent hw hsorted hroot hmem hshape hi hj,
        ← hm''.entries t r c hshape i hi j hj, gradEntry, hg]
      rfl
    refine ⟨hentry, fun hsmooth => ?_⟩
    rw [hentry]
    exact hasTangent hw hsmooth root .refl 1 1 hroot 0 Nat.one_pos 0 Nat.one_pos

/-- `x = 2`, `x * x` and its `relu`. -/
def reluSquare : Heap ℚ :=
  [⟨[[2]], none, .leaf, []⟩, ⟨[[4]], none, .mul 0 0, [0]⟩, ⟨[[4]], none, .relu 1, [1]⟩]

theorem reluSquare_built : Built reluSquare := by
  have hx : Built ([⟨[[2]], none, .leaf, []⟩] : Heap ℚ) :=
    .leaf .empty Nat.one_pos Nat.one_pos ⟨rfl, by simp⟩
  have hshape : HasShape ([⟨[[2]], none, .leaf, []⟩] : Heap ℚ) 0 1 1 :=
    ⟨by decide, by decide, by decide, rfl, by decide⟩
  have hsquare : Built ([⟨[[2]], none, .leaf, []⟩, ⟨[[4]], none, .mul 0 0, [0]⟩] : Heap ℚ) :=
    .operation hx (.mul hshape hshape) (List.Perm.refl [0]) (by decide +kernel)
  have hshape' : HasShape
      ([⟨[[2]], none, .leaf, []⟩, ⟨[[4]], none, .mul 0 0, [0]⟩] : Heap ℚ) 1 1 1 :=
    ⟨by decide, by decide, by decide, rfl, by decide⟩
  exact .operation hsquare (.relu hshape') (List.Perm.refl [1]) (by decide +kernel)

theorem reluSquare_smooth : reluSquare.Smooth 2 0 := by
  intro u a _ hctx _ r c hs p hp q hq
  rcases u with _ | _ | _ | u
  · cases hctx
  · cases hctx
  · cases hctx
    have hone : reluSquare.HasShape 1 1 1 := ⟨by decide, by decide, by decide, rfl, by decide⟩
    obtain ⟨rfl, rfl⟩ := hs.unique hone
    obtain rfl : p = 0 := by omega
    obtain rfl : q = 0 := by omega
    decide +kernel
  · cases hctx

theorem backward_gradients_reluSquare :
    ∃ h' g, reluSquare.backward 3 2 = .ok h' ∧ h'.grad 0 = some g ∧ Matrix.Shaped g 1 1 ∧
      HasDerivAt (fun x => reluSquare.valueAt 0 0 0 x 2 0 0) (Matrix.entry g 0 0) (2 : ℚ) := by
  have hroot : reluSquare.HasShape 2 1 1 := ⟨by decide, by decide, by decide, rfl, by decide⟩
  have hleaf : reluSquare.HasShape 0 1 1 := ⟨by decide, by decide, by decide, rfl, by decide⟩
  have hreach : TopoSort.Reaches reluSquare.prev 2 0 :=
    .tail (.single (by decide : 1 ∈ reluSquare.prev 2)) (by decide : 0 ∈ reluSquare.prev 1)
  obtain ⟨hreturns, hright⟩ := backward_gradients reluSquare_built hroot
  obtain ⟨h', hok⟩ := hreturns 3 (by decide)
  obtain ⟨g, hg, hshaped, hentries⟩ := hright 3 h' hok 0 1 1 hreach hleaf
  exact ⟨h', g, hok, hg, hshaped, (hentries 0 Nat.one_pos 0 Nat.one_pos).2 reluSquare_smooth⟩

example : (reluSquare.backward 3 2).map (fun h => h.grad 0) = .ok (some [[4]]) := by
  decide +kernel

end Heap

end PythonPortfolio.Synapse
