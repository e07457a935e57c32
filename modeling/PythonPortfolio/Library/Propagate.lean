import Mathlib.Algebra.Notation.Defs

/-!
# Values computed from smaller nodes

Nodes are numbered, and each takes its value by a rule from nodes below it. `propagate`
computes the values when one node is given a value from outside instead. A node that
does not depend on that one keeps its value.
-/

namespace PythonPortfolio.Library.Propagate

variable {V : Type}

/-- The value of `u` when `t` has the value `seed`. -/
def propagate [Zero V] (rule : Nat → (Nat → V) → V) (t : Nat) (seed : V) (u : Nat) : V :=
  if u = t then seed
  else rule u fun a => if a < u then propagate rule t seed a else 0
termination_by u

/-- The rule of a node reads its operands only, and these lie below it. -/
structure Local (rule : Nat → (Nat → V) → V) (operands : Nat → List Nat) : Prop where
  below : ∀ u, ∀ a ∈ operands u, a < u
  reads : ∀ u x x', (∀ a ∈ operands u, x a = x' a) → rule u x = rule u x'

variable [Zero V] {rule : Nat → (Nat → V) → V} {operands : Nat → List Nat} {t : Nat} {seed : V}

@[simp] theorem propagate_self : propagate rule t seed t = seed := by
  rw [propagate, if_pos rfl]

theorem propagate_of_ne (hl : Local rule operands) {u : Nat} (hu : u ≠ t) :
    propagate rule t seed u = rule u (propagate rule t seed) := by
  rw [propagate, if_neg hu]
  exact hl.reads u _ _ fun a ha => if_pos (hl.below u a ha)

/-- What the seed satisfies and the rules preserve holds of all values. -/
theorem propagate_induction (hl : Local rule operands) {nodes : Nat → Prop} {P : Nat → V → Prop}
    (hnodes : ∀ u, nodes u → ∀ a ∈ operands u, nodes a) (hseed : nodes t → P t seed)
    (hrule : ∀ u, nodes u → u ≠ t → ∀ x, (∀ a ∈ operands u, P a (x a)) → P u (rule u x)) :
    ∀ u, nodes u → P u (propagate rule t seed u) := by
  intro u
  induction u using Nat.strongRecOn with
  | ind u ih =>
    intro hu
    by_cases hut : u = t
    · subst hut
      rw [propagate_self]
      exact hseed hu
    · rw [propagate_of_ne hl hut]
      exact hrule u hu hut _ fun a ha => ih a (hl.below u a ha) (hnodes u hu a ha)

end PythonPortfolio.Library.Propagate
