import Mathlib.Logic.Relation

/-!
# Machines that stop

A deterministic machine makes a step or stops with a result. Of two machines run side by
side, the first may make steps that the second does not notice; where a rank bounds
these, each of the two stops exactly if the other does, and their results are related.
-/

namespace PythonPortfolio.Library

variable {σ τ ρ π : Type}

/-- At most `fuel` steps. -/
def iterate (next : σ → σ ⊕ ρ) : Nat → σ → Option ρ
  | 0, _ => none
  | fuel + 1, s =>
    match next s with
    | .inl s => iterate next fuel s
    | .inr r => some r

theorem iterate_succ {next : σ → σ ⊕ ρ} {fuel : Nat} {s : σ} : iterate next (fuel + 1) s =
    match next s with
    | .inl s => iterate next fuel s
    | .inr r => some r := rfl

def Stops (next : σ → σ ⊕ ρ) (s : σ) (r : ρ) : Prop := ∃ fuel, iterate next fuel s = some r

theorem stops_of_next {next : σ → σ ⊕ ρ} {s s' : σ} {r : ρ} (h : next s = .inl s')
    (hs : Stops next s' r) : Stops next s r := by
  obtain ⟨fuel, hfuel⟩ := hs
  exact ⟨fuel + 1, by rw [iterate_succ, h]; exact hfuel⟩

theorem stops_of_stop {next : σ → σ ⊕ ρ} {s : σ} {r : ρ} (h : next s = .inr r) :
    Stops next s r :=
  ⟨1, by rw [iterate_succ, h]⟩

/-- One state follows another. -/
def Steps (next : σ → σ ⊕ ρ) : σ → σ → Prop := Relation.ReflTransGen fun s s' => next s = .inl s'

/-- The invariant rule: what every step keeps holds of every state reached. -/
theorem Steps.invariant {next : σ → σ ⊕ ρ} {P : σ → Prop} {s s' : σ} (h : Steps next s s')
    (hstart : P s) (hstep : ∀ s s', P s → next s = .inl s' → P s') : P s' := by
  induction h with
  | refl => exact hstart
  | tail _ hnext ih => exact hstep _ _ ih hnext

theorem Stops.last {next : σ → σ ⊕ ρ} {s : σ} {r : ρ} (h : Stops next s r) :
    ∃ s', Steps next s s' ∧ next s' = .inr r := by
  obtain ⟨fuel, hfuel⟩ := h
  induction fuel generalizing s with
  | zero => cases hfuel
  | succ fuel ih =>
    rw [iterate_succ] at hfuel
    cases hnext : next s with
    | inl s' =>
      rw [hnext] at hfuel
      obtain ⟨last, hsteps, hstop⟩ := ih hfuel
      exact ⟨last, .head hnext hsteps, hstop⟩
    | inr r' =>
      rw [hnext] at hfuel
      cases hfuel
      exact ⟨s, .refl, hnext⟩

/-- Related states stay related until both machines stop, the steps apart of which the
second machine takes no notice. -/
structure Lockstep (next : σ → σ ⊕ ρ) (next' : τ → τ ⊕ π) (R : σ → τ → Prop) (Q : ρ → π → Prop)
    (rank : σ → Nat) : Prop where
  step : ∀ s t, R s t →
    (∃ s', next s = .inl s' ∧ R s' t ∧ rank s' < rank s) ∨
    (∃ s' t', next s = .inl s' ∧ next' t = .inl t' ∧ R s' t') ∨
    ∃ r p, next s = .inr r ∧ next' t = .inr p ∧ Q r p

namespace Lockstep

variable {next : σ → σ ⊕ ρ} {next' : τ → τ ⊕ π} {R : σ → τ → Prop} {Q : ρ → π → Prop}
  {rank : σ → Nat} {s : σ} {t : τ}

theorem forward (h : Lockstep next next' R Q rank) (hR : R s t) {r : ρ} (hs : Stops next s r) :
    ∃ p, Stops next' t p ∧ Q r p := by
  obtain ⟨fuel, hfuel⟩ := hs
  induction fuel generalizing s t with
  | zero => cases hfuel
  | succ fuel ih =>
    rw [iterate_succ] at hfuel
    rcases h.step s t hR with ⟨s', hnext, hR', -⟩ | ⟨s', t', hnext, hnext', hR'⟩ |
      ⟨r', p, hnext, hnext', hQ⟩
    · rw [hnext] at hfuel
      exact ih hR' hfuel
    · rw [hnext] at hfuel
      obtain ⟨p, hp, hQ⟩ := ih hR' hfuel
      exact ⟨p, stops_of_next hnext' hp, hQ⟩
    · rw [hnext] at hfuel
      cases hfuel
      exact ⟨p, stops_of_stop hnext', hQ⟩

/-- The induction is on the fuel of the second machine and, for the unnoticed steps, on
the rank. -/
theorem backward (h : Lockstep next next' R Q rank) (hR : R s t) {p : π} (ht : Stops next' t p) :
    ∃ r, Stops next s r ∧ Q r p := by
  obtain ⟨fuel, hfuel⟩ := ht
  induction fuel generalizing s t with
  | zero => cases hfuel
  | succ fuel ih =>
    rw [iterate_succ] at hfuel
    induction hm : rank s using Nat.strongRecOn generalizing s with
    | ind m ihm =>
      rcases h.step s t hR with ⟨s', hnext, hR', hlt⟩ | ⟨s', t', hnext, hnext', hR'⟩ |
        ⟨r, p', hnext, hnext', hQ⟩
      · obtain ⟨r, hr, hQ⟩ := ihm (rank s') (hm ▸ hlt) hR' rfl
        exact ⟨r, stops_of_next hnext hr, hQ⟩
      · rw [hnext'] at hfuel
        obtain ⟨r, hr, hQ⟩ := ih hR' hfuel
        exact ⟨r, stops_of_next hnext hr, hQ⟩
      · rw [hnext'] at hfuel
        cases hfuel
        exact ⟨r, stops_of_stop hnext, hQ⟩

/-- A state that the second machine reaches is related to one that the first reaches; the
induction inside is on the rank, for the unnoticed steps. -/
theorem reached (h : Lockstep next next' R Q rank) (hR : R s t) {t' : τ} (ht : Steps next' t t') :
    ∃ s', Steps next s s' ∧ R s' t' := by
  induction ht with
  | refl => exact ⟨s, .refl, hR⟩
  | @tail t' t'' _ hnext' ih =>
    obtain ⟨s', hsteps, hR'⟩ := ih
    induction hm : rank s' using Nat.strongRecOn generalizing s' with
    | ind m ihm =>
      rcases h.step s' t' hR' with ⟨s'', hnext, hR'', hlt⟩ | ⟨s'', u, hnext, hu, hR''⟩ |
        ⟨r, p, -, hp, -⟩
      · exact ihm (rank s'') (hm ▸ hlt) s'' (hsteps.tail hnext) hR'' rfl
      · rw [hnext'] at hu
        cases hu
        exact ⟨s'', hsteps.tail hnext, hR''⟩
      · rw [hnext'] at hp
        cases hp

end Lockstep

end PythonPortfolio.Library
