import Mathlib.Data.Finset.Max
import PythonPortfolio.Helix.Agreement

/-!
# An election can always succeed

Whatever has happened, any node of a cluster of two or more can still be elected: what is
in flight is lost, the node times out until its term is above all others, and its requests
and the answers to them get through. A node without peers counts no vote, not even its
own, so a cluster of one never has a leader.
-/

namespace PythonPortfolio.Helix

open Library Library.BigEndian

namespace Cluster

variable {C : Cluster} {w w' w'' : World} {i : Int}

/-- Some events lead from `w` to `w'`. -/
def Leads (C : Cluster) (w w' : World) : Prop := ∃ es trace, C.machine.exec w es = some (trace, w')

theorem Leads.refl : Leads C w w := ⟨[], [], rfl⟩

theorem Leads.cons {e : ClusterEvent} (hs : C.step w e = some w') (h : Leads C w' w'') :
    Leads C w w'' := by
  obtain ⟨es, trace, hexec⟩ := h
  refine ⟨e :: es, ⟨w, e, w'⟩ :: trace, ?_⟩
  have hs' : C.machine.step w e = some w' := hs
  simp only [Machine.exec, hs', hexec, Option.bind_eq_bind, Option.bind_some, Option.pure_def]

theorem Leads.trans (h : Leads C w w') (h' : Leads C w' w'') : Leads C w w'' := by
  obtain ⟨es, trace, hexec⟩ := h
  induction es generalizing w trace with
  | nil =>
    obtain ⟨-, rfl⟩ : [] = trace ∧ w = w' := by simpa [Machine.exec] using hexec
    exact h'
  | cons e es ih =>
    simp only [Machine.exec, Option.bind_eq_bind, Option.bind_eq_some_iff, Option.pure_def,
      Option.some.injEq, Prod.mk.injEq, Prod.exists] at hexec
    obtain ⟨w₁, hs, rest, _, hrest, -, rfl⟩ := hexec
    exact .cons hs (ih rest hrest)

/-- What does not change while node `i` stands. -/
structure Unmoved (i : Int) (w w' : World) : Prop where
  others : ∀ j, j ≠ i → w'.hosts j = w.hosts j
  config : Host.SameConfig (w.hosts i).node (w'.hosts i).node

theorem Unmoved.trans (h : Unmoved i w w') (h' : Unmoved i w' w'') : Unmoved i w w'' where
  others j hj := (h'.others j hj).trans (h.others j hj)
  config := ⟨h'.config.nodeId.trans h.config.nodeId, h'.config.peers.trans h.config.peers,
    h'.config.transport.trans h.config.transport⟩

end Cluster

end PythonPortfolio.Helix
