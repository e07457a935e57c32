import Mathlib.Order.Basic

/-!
# Loops

A `while` loop is the iteration of its body, which goes on with a new state or
leaves with a result. The fuel bounds the number of passes; a result does not
depend on it. A loop returns when a measure falls with every pass, and runs
forever when an invariant rules out every exit.
-/

namespace PythonPortfolio.Library

inductive Pass (σ ρ : Type) where
  | again (s : σ)
  | leave (r : ρ)

variable {σ ρ : Type}

def whileLoop (body : σ → Pass σ ρ) : Nat → σ → Option ρ
  | 0, _ => none
  | fuel + 1, s =>
    match body s with
    | .again s' => whileLoop body fuel s'
    | .leave r => some r

variable {body : σ → Pass σ ρ} {s s' : σ} {r r' : ρ}

theorem whileLoop_again (h : body s = .again s') (fuel : Nat) :
    whileLoop body (fuel + 1) s = whileLoop body fuel s' := by
  rw [whileLoop, h]

theorem whileLoop_leave (h : body s = .leave r) (fuel : Nat) :
    whileLoop body (fuel + 1) s = some r := by
  rw [whileLoop, h]

/-- More fuel does not change a result. -/
theorem whileLoop_mono {n m : Nat} (hle : n ≤ m) (h : whileLoop body n s = some r) :
    whileLoop body m s = some r := by
  induction n generalizing s m with
  | zero => cases h
  | succ n ih =>
    obtain ⟨m, rfl⟩ : ∃ k, m = k + 1 := ⟨m - 1, by omega⟩
    cases hb : body s with
    | again s' =>
      rw [whileLoop_again hb] at h ⊢
      exact ih (by omega) h
    | leave r' =>
      rw [whileLoop_leave hb] at h ⊢
      exact h

theorem whileLoop_unique {n m : Nat} (h : whileLoop body n s = some r)
    (h' : whileLoop body m s = some r') : r = r' := by
  have hn := whileLoop_mono (Nat.le_max_left n m) h
  have hm := whileLoop_mono (Nat.le_max_right n m) h'
  exact Option.some.inj (hn.symm.trans hm)

section Rules

variable {I : σ → Prop}

/-- Invariant and measure: the loop returns, and the result is one the invariant
allows. -/
theorem whileLoop_returns {Q : ρ → Prop} (size : σ → Nat)
    (hagain : ∀ s s', I s → body s = .again s' → I s' ∧ size s' < size s)
    (hleave : ∀ s r, I s → body s = .leave r → Q r) (hs : I s) :
    ∃ fuel r, whileLoop body fuel s = some r ∧ Q r := by
  induction hn : size s using Nat.strongRecOn generalizing s with
  | ind n ih =>
    cases hb : body s with
    | again s' =>
      obtain ⟨hs', hlt⟩ := hagain s s' hs hb
      obtain ⟨fuel, r, hrun, hr⟩ := ih (size s') (hn ▸ hlt) hs' rfl
      exact ⟨fuel + 1, r, (whileLoop_again hb fuel).trans hrun, hr⟩
    | leave r => exact ⟨1, r, whileLoop_leave hb 0, hleave s r hs hb⟩

/-- An invariant under which the body never leaves. -/
theorem whileLoop_diverges (h : ∀ s, I s → ∃ s', body s = .again s' ∧ I s') (hs : I s)
    (fuel : Nat) : whileLoop body fuel s = none := by
  induction fuel generalizing s with
  | zero => rfl
  | succ fuel ih =>
    obtain ⟨s', hb, hs'⟩ := h s hs
    rw [whileLoop_again hb]
    exact ih hs'

end Rules

end PythonPortfolio.Library
