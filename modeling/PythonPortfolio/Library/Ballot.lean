import Mathlib.Data.Finset.Card
import Mathlib.Order.Basic
import Mathlib.Tactic.Linarith

/-!
# Ballots and majorities

A voter's ballot is the term it stands in and the candidate, if any, it chose
there. Ballots are ordered by what an honest voter may do: move to a later term,
or choose in the current term when it has not chosen yet. Two comparable
ballots of one term never name two candidates, and two majorities of one
electorate share a voter, so at most one candidate collects a majority of the
votes of a term.
-/

namespace PythonPortfolio.Library

/-- The vote of one voter in one term. -/
structure Ballot (τ κ : Type) where
  term : τ
  vote : Option κ
deriving DecidableEq

namespace Ballot

variable {τ κ : Type}

/-- `b` may be followed by `b'`. -/
instance [Preorder τ] : LE (Ballot τ κ) where
  le b b' := b.term < b'.term ∨ b.term = b'.term ∧ (b.vote = none ∨ b.vote = b'.vote)

instance [Preorder τ] : Preorder (Ballot τ κ) where
  le_refl b := Or.inr ⟨rfl, Or.inr rfl⟩
  le_trans a b c hab hbc := by
    rcases hab with hab | ⟨hab, hv⟩ <;> rcases hbc with hbc | ⟨hbc, hw⟩
    · exact Or.inl (hab.trans hbc)
    · exact Or.inl (hbc ▸ hab)
    · exact Or.inl (hab ▸ hbc)
    · refine Or.inr ⟨hab.trans hbc, ?_⟩
      rcases hv with hv | hv
      · exact Or.inl hv
      · rw [hv]
        exact hw

theorem term_le [Preorder τ] {b b' : Ballot τ κ} (h : b ≤ b') : b.term ≤ b'.term := by
  rcases h with h | ⟨h, _⟩
  · exact h.le
  · exact h.le

/-- A vote that was cast stays cast while the term lasts. -/
theorem vote_stable [Preorder τ] {b b' : Ballot τ κ} {c : κ} (h : b ≤ b')
    (ht : b.term = b'.term) (hv : b.vote = some c) : b'.vote = some c := by
  rcases h with h | ⟨_, h | h⟩
  · exact absurd ht h.ne
  · rw [h] at hv
    cases hv
  · rw [← h, hv]

/-- Comparable ballots of one term name at most one candidate. -/
theorem vote_unique [Preorder τ] {b b' : Ballot τ κ} {c c' : κ} (h : b ≤ b' ∨ b' ≤ b)
    (ht : b.term = b'.term) (hv : b.vote = some c) (hv' : b'.vote = some c') : c = c' := by
  rcases h with h | h
  · have := vote_stable h ht hv
    rw [hv'] at this
    exact (Option.some.inj this).symm
  · have := vote_stable h ht.symm hv'
    rw [hv] at this
    exact Option.some.inj this

end Ballot

section Majority

variable {ν κ : Type} [DecidableEq ν]

/-- More than half of the electorate. -/
def Majority (electorate voters : Finset ν) : Prop :=
  voters ⊆ electorate ∧ electorate.card < 2 * voters.card

theorem Majority.intersect {electorate a b : Finset ν}
    (ha : Majority electorate a) (hb : Majority electorate b) : ∃ v, v ∈ a ∧ v ∈ b := by
  by_contra hno
  have hdisj : Disjoint a b :=
    Finset.disjoint_left.mpr fun v hv hv' => hno ⟨v, hv, hv'⟩
  have hcard := Finset.card_union_of_disjoint hdisj
  have hle := Finset.card_le_card (Finset.union_subset ha.1 hb.1)
  have h₁ := ha.2
  have h₂ := hb.2
  omega

/-- If every voter votes for at most one candidate, at most one candidate has a
majority. -/
theorem Majority.winner_unique {electorate a b : Finset ν} {voted : ν → κ → Prop}
    (honest : ∀ v c c', voted v c → voted v c' → c = c') {c c' : κ}
    (ha : Majority electorate a) (hva : ∀ v ∈ a, voted v c)
    (hb : Majority electorate b) (hvb : ∀ v ∈ b, voted v c') : c = c' := by
  obtain ⟨v, hv, hv'⟩ := ha.intersect hb
  exact honest v c c' (hva v hv) (hvb v hv')

end Majority

end PythonPortfolio.Library
