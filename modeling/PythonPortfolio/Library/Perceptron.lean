import Mathlib

/-!
# Gradient descent on a two-layer perceptron

A hidden layer with `max 0` as activation, one output, squared errors summed over the
samples. `slope` is the derivative of the loss in a direction, by the chain rule, with
the activation flat at 0; `gradient` is the vector that represents it. Away from zeros
of the hidden layer `slope` is the derivative, so a short enough step against the
gradient decreases the loss.
-/

namespace PythonPortfolio.Library.Perceptron

open Finset

/-- Weights and biases of the two layers. -/
@[ext]
structure Params (ι κ K : Type) where
  w1 : ι → κ → K
  b1 : κ → K
  w2 : κ → K
  b2 : K

structure Sample (ι K : Type) where
  input : ι → K
  target : K

variable {ι κ K : Type}

/-- `θ - lr * g`. -/
def Params.descend [Ring K] (θ : Params ι κ K) (lr : K) (g : Params ι κ K) : Params ι κ K where
  w1 i k := θ.w1 i k - lr * g.w1 i k
  b1 k := θ.b1 k - lr * g.b1 k
  w2 k := θ.w2 k - lr * g.w2 k
  b2 := θ.b2 - lr * g.b2

section Loss

variable [Fintype ι] [Fintype κ] [CommRing K] [LinearOrder K]

/-- The derivative of `max 0`, taken to be 0 at 0. -/
def gate (x : K) : K := if x > 0 then 1 else 0

/-- What the hidden unit `k` is given. -/
def hidden (θ : Params ι κ K) (x : ι → K) (k : κ) : K := ∑ i, x i * θ.w1 i k + θ.b1 k

def output (θ : Params ι κ K) (x : ι → K) : K := ∑ k, max 0 (hidden θ x k) * θ.w2 k + θ.b2

def residual (θ : Params ι κ K) (s : Sample ι K) : K := output θ s.input - s.target

def loss (θ : Params ι κ K) (samples : List (Sample ι K)) : K :=
  (samples.map fun s => residual θ s * residual θ s).sum

/-! ## The chain rule -/

/-- The change of the output when the parameters change by `δ`. -/
def outputSlope (θ δ : Params ι κ K) (x : ι → K) : K :=
  ∑ k, (gate (hidden θ x k) * hidden δ x k * θ.w2 k + max 0 (hidden θ x k) * δ.w2 k) + δ.b2

def slope (θ δ : Params ι κ K) (samples : List (Sample ι K)) : K :=
  (samples.map fun s => 2 * residual θ s * outputSlope θ δ s.input).sum

/-- What the errors of the samples say about one parameter. -/
def spread (θ : Params ι κ K) (samples : List (Sample ι K)) (f : (ι → K) → K) : K :=
  (samples.map fun s => 2 * residual θ s * f s.input).sum

def gradient (θ : Params ι κ K) (samples : List (Sample ι K)) : Params ι κ K where
  w1 i k := spread θ samples fun x => gate (hidden θ x k) * x i * θ.w2 k
  b1 k := spread θ samples fun x => gate (hidden θ x k) * θ.w2 k
  w2 k := spread θ samples fun x => max 0 (hidden θ x k)
  b2 := spread θ samples fun _ => 1

omit [LinearOrder K] in
/-- The inner product of two parameter vectors. -/
def inner (g δ : Params ι κ K) : K :=
  ∑ i, ∑ k, g.w1 i k * δ.w1 i k + ∑ k, g.b1 k * δ.b1 k + ∑ k, g.w2 k * δ.w2 k + g.b2 * δ.b2

theorem spread_nil (θ : Params ι κ K) (f : (ι → K) → K) : spread θ [] f = 0 := rfl

theorem spread_cons (θ : Params ι κ K) (s : Sample ι K) (samples : List (Sample ι K))
    (f : (ι → K) → K) :
    spread θ (s :: samples) f = 2 * residual θ s * f s.input + spread θ samples f := by
  rw [spread, List.map_cons, List.sum_cons, spread]

/-- The gradient represents the slope. -/
theorem slope_eq_inner (θ δ : Params ι κ K) (samples : List (Sample ι K)) :
    slope θ δ samples = inner (gradient θ samples) δ := by
  induction samples with
  | nil => simp [slope, inner, gradient, spread_nil]
  | cons s samples ih =>
    have hunit : ∀ k, ∑ i, 2 * residual θ s * (gate (hidden θ s.input k) * s.input i * θ.w2 k) *
        δ.w1 i k + 2 * residual θ s * (gate (hidden θ s.input k) * θ.w2 k) * δ.b1 k +
        2 * residual θ s * max 0 (hidden θ s.input k) * δ.w2 k =
        2 * residual θ s * (gate (hidden θ s.input k) * hidden δ s.input k * θ.w2 k +
          max 0 (hidden θ s.input k) * δ.w2 k) := by
      intro k
      have hsum : ∑ i, 2 * residual θ s * (gate (hidden θ s.input k) * s.input i * θ.w2 k) *
          δ.w1 i k = 2 * residual θ s * gate (hidden θ s.input k) * θ.w2 k *
            ∑ i, s.input i * δ.w1 i k := by
        rw [mul_sum]
        exact sum_congr rfl fun i _ => by ring
      have hchange : hidden δ s.input k = ∑ i, s.input i * δ.w1 i k + δ.b1 k := rfl
      rw [hsum, hchange]
      ring
    have hfirst : slope θ δ (s :: samples) =
        2 * residual θ s * outputSlope θ δ s.input + slope θ δ samples := by
      rw [slope, List.map_cons, List.sum_cons, slope]
    rw [hfirst, ih, outputSlope, mul_add, mul_sum, ← sum_congr rfl fun k _ => hunit k]
    simp only [inner, gradient, spread_cons, add_mul, sum_add_distrib]
    rw [sum_comm (f := fun i k => 2 * residual θ s *
      (gate (hidden θ s.input k) * s.input i * θ.w2 k) * δ.w1 i k)]
    ring

end Loss

/-! ## The derivative -/

section Derivative

variable [Fintype ι] [Fintype κ] [NontriviallyNormedField K] [LinearOrder K]

omit [Fintype κ] [LinearOrder K] in
theorem hidden_descend (θ δ : Params ι κ K) (lr : K) (x : ι → K) (k : κ) :
    hidden (θ.descend lr δ) x k = hidden θ x k - lr * hidden δ x k := by
  simp only [hidden, Params.descend, mul_sub, sum_sub_distrib, mul_add, mul_sum]
  have hswap : ∀ i, x i * (lr * δ.w1 i k) = lr * (x i * δ.w1 i k) := fun i => by ring
  simp only [hswap]
  ring

omit [LinearOrder K] in
theorem hasDerivAt_line (a b : K) : HasDerivAt (fun lr => a - lr * b) (-b) 0 := by
  have := ((hasDerivAt_id (0 : K)).mul_const b).const_sub a
  rwa [one_mul] at this

theorem hasDerivAt_ramp [OrderClosedTopology K] {f : K → K} {f' x : K} (h : HasDerivAt f f' x)
    (hx : f x ≠ 0) : HasDerivAt (fun t => max 0 (f t)) (gate (f x) * f') x := by
  rcases lt_or_gt_of_ne hx with hneg | hpos
  · have hnear : ∀ᶠ t in nhds x, f t < 0 := h.continuousAt.eventually_lt continuousAt_const hneg
    rw [gate, if_neg hneg.not_gt, zero_mul]
    refine (hasDerivAt_const x 0).congr_of_eventuallyEq (hnear.mono fun t ht => ?_)
    exact max_eq_left ht.le
  · have hnear : ∀ᶠ t in nhds x, 0 < f t := continuousAt_const.eventually_lt h.continuousAt hpos
    rw [gate, if_pos hpos, one_mul]
    refine h.congr_of_eventuallyEq (hnear.mono fun t ht => ?_)
    exact max_eq_right ht.le

/-- No hidden unit is given 0. -/
def Smooth (θ : Params ι κ K) (samples : List (Sample ι K)) : Prop :=
  ∀ s ∈ samples, ∀ k, hidden θ s.input k ≠ 0

variable [OrderClosedTopology K] {θ : Params ι κ K}

theorem hasDerivAt_output (δ : Params ι κ K) {x : ι → K} (hx : ∀ k, hidden θ x k ≠ 0) :
    HasDerivAt (fun lr => output (θ.descend lr δ) x) (-outputSlope θ δ x) 0 := by
  have hunit : ∀ k, HasDerivAt
      (fun lr => max 0 (hidden (θ.descend lr δ) x k) * (θ.w2 k - lr * δ.w2 k))
      (gate (hidden θ x k) * -hidden δ x k * θ.w2 k + max 0 (hidden θ x k) * -δ.w2 k) 0 := by
    intro k
    have hline := hasDerivAt_line (hidden θ x k) (hidden δ x k)
    have hramp := hasDerivAt_ramp hline (by simpa using hx k)
    simp only [hidden_descend]
    refine (hramp.mul (hasDerivAt_line (θ.w2 k) (δ.w2 k))).congr_deriv ?_
    simp only [zero_mul, sub_zero]
  have hsum := HasDerivAt.fun_sum fun k (_ : k ∈ Finset.univ) => hunit k
  refine (hsum.add (hasDerivAt_line θ.b2 δ.b2)).congr_deriv ?_
  rw [outputSlope, neg_add, ← sum_neg_distrib]
  congr 1
  exact sum_congr rfl fun k _ => by ring

/-- Where no hidden unit is given 0, the slope is the derivative in its direction. -/
theorem hasDerivAt_loss (δ : Params ι κ K) {samples : List (Sample ι K)}
    (hsmooth : Smooth θ samples) :
    HasDerivAt (fun lr => loss (θ.descend lr δ) samples) (-slope θ δ samples) 0 := by
  induction samples with
  | nil =>
    simp only [loss, slope, List.map_nil, List.sum_nil, neg_zero]
    exact hasDerivAt_const 0 0
  | cons s samples ih =>
    have hrest := ih fun s' hs' => hsmooth s' (List.mem_cons_of_mem _ hs')
    have hres := (hasDerivAt_output δ (hsmooth s List.mem_cons_self)).sub_const s.target
    have hzero : θ.descend 0 δ = θ := by simp [Params.descend]
    simp only [loss, slope, List.map_cons, List.sum_cons] at hrest ⊢
    refine ((hres.mul hres).add hrest).congr_deriv ?_
    rw [hzero, residual]
    ring

end Derivative

/-! ## Descent -/

variable [Fintype ι] [Fintype κ]

theorem inner_self_pos {g : Params ι κ ℝ} (hg : g ≠ ⟨0, 0, 0, 0⟩) : 0 < inner g g := by
  have hw1 : 0 ≤ ∑ i, ∑ k, g.w1 i k * g.w1 i k :=
    sum_nonneg fun i _ => sum_nonneg fun k _ => mul_self_nonneg _
  have hb1 : 0 ≤ ∑ k, g.b1 k * g.b1 k := sum_nonneg fun k _ => mul_self_nonneg _
  have hw2 : 0 ≤ ∑ k, g.w2 k * g.w2 k := sum_nonneg fun k _ => mul_self_nonneg _
  have hb2 : 0 ≤ g.b2 * g.b2 := mul_self_nonneg _
  have hnonneg : 0 ≤ inner g g := by
    unfold inner
    positivity
  refine hnonneg.lt_of_ne fun hzero => hg ?_
  have hzeros : ∀ {α : Type} [Fintype α] {f : α → ℝ}, ∑ a, f a * f a ≤ 0 → f = 0 := by
    intro α _ f hf
    funext a
    have hle := single_le_sum (f := fun a => f a * f a) (fun a _ => mul_self_nonneg _)
      (mem_univ a)
    exact mul_self_eq_zero.mp (le_antisymm (hle.trans hf) (mul_self_nonneg _))
  unfold inner at hzero
  obtain ⟨w1, b1, w2, b2⟩ := g
  dsimp only at *
  have hrows : w1 = 0 := by
    funext i
    have hle := single_le_sum (f := fun i => ∑ k, w1 i k * w1 i k)
      (fun i _ => sum_nonneg fun k _ => mul_self_nonneg _) (mem_univ i)
    exact hzeros (hle.trans (by linarith))
  obtain rfl : b1 = 0 := hzeros (by linarith)
  obtain rfl : w2 = 0 := hzeros (by linarith)
  obtain rfl : b2 = 0 := mul_self_eq_zero.mp (le_antisymm (by linarith) hb2)
  rw [hrows]

/-- A short enough step against a gradient that is not zero decreases the loss. -/
theorem exists_descent {θ : Params ι κ ℝ} {samples : List (Sample ι ℝ)}
    (hsmooth : Smooth θ samples) (hg : gradient θ samples ≠ ⟨0, 0, 0, 0⟩) :
    ∃ ε > 0, ∀ lr, 0 < lr → lr < ε →
      loss (θ.descend lr (gradient θ samples)) samples < loss θ samples := by
  have hderiv := hasDerivAt_loss (gradient θ samples) hsmooth
  rw [slope_eq_inner] at hderiv
  have hneg : -inner (gradient θ samples) (gradient θ samples) < 0 :=
    neg_neg_of_pos (inner_self_pos hg)
  have hslope := hderiv.tendsto_slope_zero_right.eventually (gt_mem_nhds hneg)
  obtain ⟨ε, hε, hsub⟩ := mem_nhdsGT_iff_exists_Ioo_subset.mp hslope
  refine ⟨ε, hε, fun lr hpos hlt => ?_⟩
  have hquot : lr⁻¹ • (loss (θ.descend (0 + lr) (gradient θ samples)) samples -
      loss (θ.descend 0 (gradient θ samples)) samples) < 0 := hsub ⟨hpos, hlt⟩
  have hzero : θ.descend 0 (gradient θ samples) = θ := by simp [Params.descend]
  rw [zero_add, hzero, smul_eq_mul] at hquot
  exact sub_neg.mp (neg_of_mul_neg_right hquot (inv_pos.mpr hpos).le)

end PythonPortfolio.Library.Perceptron
