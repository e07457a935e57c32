import Mathlib.Algebra.BigOperators.Group.Finset.Sigma
import Mathlib.Algebra.BigOperators.Intervals
import Mathlib.Algebra.BigOperators.Ring.Finset
import Mathlib.Algebra.Ring.Pi
import Mathlib.Tactic.Ring

/-!
# The pairing of tables

Two tables of the same shape are paired by adding up the products of their entries.
Each linear operation on tables has a transpose under this pairing.
-/

namespace PythonPortfolio.Library.TablePairing

open Finset

variable {K : Type} [CommRing K] (r c k : Nat)

def dot (m x : Nat → Nat → K) : K := ∑ i ∈ range r, ∑ j ∈ range c, m i j * x i j

/-- The table with a single 1. -/
def single (i j : Nat) : Nat → Nat → K := fun p q => if p = i ∧ q = j then 1 else 0

/-- Pairing with a fixed table. -/
def dotWith (x : Nat → Nat → K) : (Nat → Nat → K) →+ K where
  toFun m := dot r c m x
  map_zero' := by simp [dot]
  map_add' m m' := by simp [dot, add_mul, sum_add_distrib]

variable {r c k}

@[simp] theorem dot_zero (m : Nat → Nat → K) : dot r c m 0 = 0 := by simp [dot]

theorem dot_single {i j : Nat} (m : Nat → Nat → K) (hi : i < r) (hj : j < c) :
    dot r c m (single i j) = m i j := by
  have hrow : ∀ p ∈ range r,
      ∑ q ∈ range c, m p q * single i j p q = if p = i then m p j else 0 := by
    intro p _
    by_cases hp : p = i
    · simp [single, hp, hj]
    · simp [single, hp]
  rw [dot, sum_congr rfl hrow]
  simp [hi]

theorem dot_add (m x y : Nat → Nat → K) : dot r c m (x + y) = dot r c m x + dot r c m y := by
  simp [dot, mul_add, sum_add_distrib]

/-- Entrywise scaling is its own transpose. -/
theorem dot_scale (m w x : Nat → Nat → K) : dot r c m (w * x) = dot r c (w * m) x := by
  refine sum_congr rfl fun i _ => sum_congr rfl fun j _ => ?_
  show m i j * (w i j * x i j) = w i j * m i j * x i j
  ring

/-- The transpose of a product on the right. -/
theorem dot_mul_right (m x w : Nat → Nat → K) :
    dot r c m (fun i j => ∑ l ∈ range k, x i l * w l j) =
      dot r k (fun i l => ∑ j ∈ range c, m i j * w l j) x := by
  refine sum_congr rfl fun i _ => ?_
  simp only [mul_sum, sum_mul]
  rw [sum_comm]
  refine sum_congr rfl fun l _ => sum_congr rfl fun j _ => ?_
  ring

/-- The transpose of a product on the left. -/
theorem dot_mul_left (m w y : Nat → Nat → K) :
    dot r c m (fun i j => ∑ l ∈ range k, w i l * y l j) =
      dot k c (fun l j => ∑ i ∈ range r, w i l * m i j) y := by
  simp only [dot, mul_sum, sum_mul]
  calc
    _ = ∑ i ∈ range r, ∑ l ∈ range k, ∑ j ∈ range c, m i j * (w i l * y l j) :=
      sum_congr rfl fun i _ => sum_comm
    _ = ∑ l ∈ range k, ∑ i ∈ range r, ∑ j ∈ range c, m i j * (w i l * y l j) := sum_comm
    _ = ∑ l ∈ range k, ∑ j ∈ range c, ∑ i ∈ range r, m i j * (w i l * y l j) :=
      sum_congr rfl fun l _ => sum_comm
    _ = _ := by
      refine sum_congr rfl fun l _ => sum_congr rfl fun j _ => sum_congr rfl fun i _ => ?_
      ring

/-- The transpose of adding up all entries. -/
theorem dot_total (m x : Nat → Nat → K) :
    dot 1 1 m (fun _ _ => ∑ i ∈ range r, ∑ j ∈ range c, x i j) = dot r c (fun _ _ => m 0 0) x := by
  simp [dot, mul_sum]

end PythonPortfolio.Library.TablePairing
