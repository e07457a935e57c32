import Mathlib.Algebra.Order.Group.Defs
import Mathlib.Algebra.BigOperators.Group.List.Basic
import Mathlib.Algebra.Order.BigOperators.Group.List
import Mathlib.Data.Finset.Insert
import Mathlib.Data.List.Induction
import Mathlib.Order.Bounds.Basic

/-!
# Walks

A directed graph with edges of any type, so that parallel edges and self-loops
are nothing special. A walk is the list of its edges.
-/

namespace PythonPortfolio.Library

structure Network (V ε : Type) where
  src : ε → V
  dst : ε → V
  edges : List ε

namespace Network

variable {V ε : Type} (G : Network V ε)

/-- The edges out of a node, in the order of the graph's list. -/
def out [DecidableEq V] (a : V) : List ε := G.edges.filter fun e => G.src e = a

/-- `G.Walk a p b`: the edges of `p` lead one after another from `a` to `b`. -/
inductive Walk (a : V) : List ε → V → Prop
  | nil : Walk a [] a
  | snoc {p : List ε} {e : ε} (h : Walk a p (G.src e)) (he : e ∈ G.edges) :
      Walk a (p ++ [e]) (G.dst e)

variable {G} {a b c : V} {e : ε} {p q : List ε}

theorem mem_out [DecidableEq V] : e ∈ G.out a ↔ e ∈ G.edges ∧ G.src e = a := by
  rw [out, List.mem_filter, decide_eq_true_eq]

theorem walk_nil : G.Walk a [] b ↔ a = b := by
  constructor
  · intro h
    generalize hp : ([] : List ε) = p at h
    cases h with
    | nil => rfl
    | snoc h he => simp at hp
  · intro h
    exact h ▸ .nil

theorem walk_concat : G.Walk a (p ++ [e]) b ↔ G.Walk a p (G.src e) ∧ e ∈ G.edges ∧ G.dst e = b := by
  constructor
  · intro h
    generalize hq : p ++ [e] = q at h
    cases h with
    | nil => simp at hq
    | snoc h he =>
      obtain ⟨rfl, hlast⟩ := List.append_inj' hq rfl
      obtain rfl := (List.cons.inj hlast).1
      exact ⟨h, he, rfl⟩
  · intro hx
    obtain ⟨h, he, rfl⟩ := hx
    exact h.snoc he

theorem Walk.append (h : G.Walk a p b) (h' : G.Walk b q c) : G.Walk a (p ++ q) c := by
  induction h' with
  | nil => rwa [List.append_nil]
  | snoc _ he ih =>
    rw [← List.append_assoc]
    exact ih.snoc he

theorem Walk.edge (he : e ∈ G.edges) : G.Walk (G.src e) [e] (G.dst e) := Walk.nil.snoc he

theorem Walk.split (h : G.Walk a (p ++ q) c) : ∃ b, G.Walk a p b ∧ G.Walk b q c := by
  induction q using List.reverseRecOn generalizing c with
  | nil => exact ⟨c, by rwa [List.append_nil] at h, .nil⟩
  | append_singleton q e ih =>
    rw [← List.append_assoc, walk_concat] at h
    obtain ⟨hpq, he, rfl⟩ := h
    obtain ⟨b, hp, hq⟩ := ih hpq
    exact ⟨b, hp, hq.snoc he⟩

/-- A set of nodes that no edge leaves holds every node a walk reaches from it. -/
theorem Walk.closed {S : V → Prop} (hclosed : ∀ e ∈ G.edges, S (G.src e) → S (G.dst e))
    (h : G.Walk a p b) (ha : S a) : S b := by
  induction h with
  | nil => exact ha
  | snoc _ he ih => exact hclosed _ he ih

/-- The numbers of edges of the walks between two nodes. -/
def lengths (G : Network V ε) (a b : V) : Set Nat := {n | ∃ p, G.Walk a p b ∧ p.length = n}

section Pending

variable [DecidableEq V]

/-- The edges whose end given by `key` has not been visited. -/
def pending (G : Network V ε) (key : ε → V) (visited : Finset V) : List ε :=
  G.edges.filter fun e => key e ∉ visited

/-- A visit takes the edges at the node off the list. -/
theorem length_pending (key : ε → V) {visited : Finset V} {v : V} (hv : v ∉ visited) :
    (G.pending key visited).length =
      (G.edges.filter fun e => key e = v).length + (G.pending key (insert v visited)).length := by
  have hat : (G.pending key visited).filter (fun e => key e = v) =
      G.edges.filter fun e => key e = v := by
    rw [pending, List.filter_filter]
    refine List.filter_congr fun e _ => ?_
    by_cases he : key e = v <;> simp [he, hv]
  have hrest : (G.pending key visited).filter (fun e => !decide (key e = v)) =
      G.pending key (insert v visited) := by
    rw [pending, pending, List.filter_filter]
    refine List.filter_congr fun e _ => ?_
    by_cases he : key e = v <;> simp [he]
  rw [List.length_eq_length_filter_add fun e => decide (key e = v), hat, hrest]

end Pending

section Weight

variable {ω : Type} [AddCommGroup ω] {w : ε → ω}

def weight (w : ε → ω) (p : List ε) : ω := (p.map w).sum

@[simp] theorem weight_nil : weight w ([] : List ε) = 0 := rfl

@[simp] theorem weight_append : weight w (p ++ q) = weight w p + weight w q := by
  rw [weight, List.map_append, List.sum_append]
  rfl

@[simp] theorem weight_singleton : weight w [e] = w e := by
  rw [weight, List.map_singleton, List.sum_singleton]

variable [LinearOrder ω] [IsOrderedAddMonoid ω]

theorem Walk.weight_nonneg (hw : ∀ e ∈ G.edges, 0 ≤ w e) (h : G.Walk a p b) : 0 ≤ weight w p := by
  induction h with
  | nil => exact le_refl _
  | snoc _ he ih =>
    rw [weight_append, weight_singleton]
    exact add_nonneg ih (hw _ he)

/-- A walk that leaves a set of nodes does so by an edge; the way up to and with
that edge costs no more than the walk. -/
theorem Walk.leaves {S : V → Prop} (hw : ∀ e ∈ G.edges, 0 ≤ w e) (h : G.Walk a p b) (ha : S a)
    (hb : ¬ S b) : ∃ e ∈ G.edges, ∃ q, G.Walk a q (G.src e) ∧ S (G.src e) ∧ ¬ S (G.dst e) ∧
      weight w q + w e ≤ weight w p := by
  induction h with
  | nil => exact absurd ha hb
  | @snoc p e h he ih =>
    by_cases hs : S (G.src e)
    · exact ⟨e, he, p, h, hs, hb, by rw [weight_append, weight_singleton]⟩
    · obtain ⟨f, hf, q, hq, hin, hout, hle⟩ := ih hs
      refine ⟨f, hf, q, hq, hin, hout, hle.trans ?_⟩
      rw [weight_append, weight_singleton]
      exact le_add_of_nonneg_right (hw e he)

end Weight

end Network

end PythonPortfolio.Library
