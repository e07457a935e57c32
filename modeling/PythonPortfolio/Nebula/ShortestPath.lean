import PythonPortfolio.Nebula.Dijkstra

/-!
# Cheapest paths, and when the search ends

Without negative weights a walk of cheapest ways in has the weight at which the
search came to the target, and no walk has less. `add_edge` accepts negative
weights as well; then the second loop ends exactly when the search is not trapped,
and what it returns is a walk, though not always the cheapest one.
-/

namespace PythonPortfolio.Nebula.GraphTraversal

open Library Library.Network

variable {ν : Type} {graph s₀ : GraphStorage ν ℚ} {capacityLimit : Int}
  {trace : List (GraphStorage.CallStep ν ℚ)}

/-- Dijkstra's search finds cheapest walks in every reachable store without negative
weights, and returns `None` exactly when no walk leads to the target. -/
theorem dijkstra_cheapest (h : (GraphStorage.machine ν ℚ capacityLimit).Run s₀ trace graph)
    (hw : ∀ e ∈ graph.edges.values, 0 ≤ e.weight) (start target : Int) :
    ∃ r, (∃ fuel, findShortestPathDijkstra graph start target fuel = some (.ok r)) ∧
      (r = none ↔ ∀ p, ¬ graph.network.Walk start p target) ∧
      (start = target → r = some []) ∧
      ∀ ids, r = some ids → ∃ p, graph.network.Walk start p target ∧ p.map Edge.id = ids ∧
        ∀ q, graph.network.Walk start q target → weight Edge.weight p ≤ weight Edge.weight q := by
  rcases findShortestPathDijkstra_cases (GraphStorage.consistent_run h) start target with
    ⟨fuel, hfind, hnone⟩ | ⟨_, l, c, harr, fuel, p, hfind, hp⟩ | ⟨htrap, _⟩
  · refine ⟨none, ⟨fuel, hfind⟩, iff_of_true rfl hnone, fun heq => ?_, fun ids hids => ?_⟩
    · exact absurd (heq ▸ Walk.nil) (hnone [])
    · cases hids
  · refine ⟨some (p.map Edge.id), ⟨fuel, hfind⟩, iff_of_false (by simp) fun hx => hx p hp.1,
      fun heq => ?_, fun ids hids => ⟨p, hp.1, Option.some.inj hids, fun q hq => ?_⟩⟩
    · -- the last edge of the walk does not enter the start
      rcases List.eq_nil_or_concat' p with rfl | ⟨q, e, rfl⟩
      · rfl
      · exact absurd heq.symm (cheapestWalk_concat.mp hp).2.2.1
    · exact (harr.weight_le hp).trans (harr.le_weight hw hq)
  · exact absurd htrap (not_trapped hw)

/-- A zero-weight cycle, a self-loop and two parallel edges. -/
def cheapestSample : List (GraphStorage.Call Unit ℚ) :=
  [.addNode [] .empty, .addNode [] .empty, .addNode [] .empty,
    .addEdge 1 2 "ROAD" 2 .empty, .addEdge 1 2 "ROAD" 1 .empty, .addEdge 2 2 "ROAD" 0 .empty,
    .addEdge 2 1 "ROAD" 0 .empty, .addEdge 2 3 "ROAD" 0 .empty, .addEdge 1 3 "ROAD" 5 .empty]

theorem dijkstra_cheapest_sample : ∃ trace graph p,
    (GraphStorage.machine Unit ℚ 10).Run (GraphStorage.init 10) trace graph ∧
      (∃ fuel, findShortestPathDijkstra graph 1 3 fuel = some (.ok (some [2, 5]))) ∧
      graph.network.Walk 1 p 3 ∧ p.map Edge.id = [2, 5] ∧
      ∀ q, graph.network.Walk 1 q 3 → weight Edge.weight p ≤ weight Edge.weight q := by
  have hexec : ∃ trace graph, (GraphStorage.machine Unit ℚ 10).exec (GraphStorage.init 10)
      cheapestSample = some (trace, graph) ∧ (∀ e ∈ graph.edges.values, 0 ≤ e.weight) ∧
      findShortestPathDijkstra graph 1 3 6 = some (.ok (some [2, 5])) :=
    ⟨_, _, rfl, by decide, by decide +kernel⟩
  obtain ⟨trace, graph, hexec, hw, hfind⟩ := hexec
  have hrun := Machine.exec_run (M := GraphStorage.machine Unit ℚ 10) rfl hexec
  obtain ⟨r, ⟨fuel, hr⟩, _, _, hwalk⟩ := dijkstra_cheapest hrun hw 1 3
  obtain rfl := Except.ok.inj (findShortestPathDijkstra_unique hfind hr)
  obtain ⟨p, hp, hids, hleast⟩ := hwalk _ rfl
  exact ⟨trace, graph, p, hrun, ⟨6, hfind⟩, hp, hids, hleast⟩

/-! ## Negative weights -/

/-- Both loops end and a returned list is a walk exactly when the search is not
trapped; it can only be trapped by a cycle of negative weight that avoids the start. -/
theorem dijkstra_stops_iff (h : (GraphStorage.machine ν ℚ capacityLimit).Run s₀ trace graph)
    (start target : Int) :
    (((∃ fuel r, findShortestPathDijkstra graph start target fuel = some r) ∧
      ∀ fuel ids, findShortestPathDijkstra graph start target fuel = some (.ok (some ids)) →
        ∃ p, graph.network.Walk start p target ∧ p.map Edge.id = ids) ↔
      ¬ graph.network.Trapped Edge.weight start target) ∧
    (graph.network.Trapped Edge.weight start target → ∃ v cycle, cycle ≠ [] ∧
      graph.network.Walk v cycle v ∧ (∀ e ∈ cycle, e.dst ≠ start) ∧
      weight Edge.weight cycle < 0) := by
  refine ⟨?_, Trapped.cycle_neg⟩
  rcases findShortestPathDijkstra_cases (GraphStorage.consistent_run h) start target with
    ⟨fuel, hfind, hnone⟩ | ⟨hfree, l, c, harr, fuel, p, hfind, hp⟩ | ⟨htrap, hfind⟩
  · refine iff_of_true ⟨⟨fuel, _, hfind⟩, fun n ids hids => ?_⟩ fun htrap => ?_
    · cases findShortestPathDijkstra_unique hfind hids
    · obtain ⟨l, c, v, cycle, lead, harr, _⟩ := htrap
      obtain ⟨p, hp⟩ := harr.exists_walk
      exact hnone p hp
  · refine iff_of_true ⟨⟨fuel, _, hfind⟩, fun n ids hids => ⟨p, hp.1, ?_⟩⟩ hfree
    exact Option.some.inj (Except.ok.inj (findShortestPathDijkstra_unique hfind hids))
  · refine iff_of_false (fun hx => ?_) (not_not.mpr htrap)
    obtain ⟨⟨n, r, hr⟩, _⟩ := hx
    rw [hfind n] at hr
    cases hr

/-- Two steps towards the target, and a way back of weight -5 between them. -/
def trapSample : List (GraphStorage.Call Unit ℚ) :=
  [.addNode [] .empty, .addNode [] .empty, .addNode [] .empty, .addNode [] .empty,
    .addEdge 1 2 "ROAD" 1 .empty, .addEdge 2 3 "ROAD" 1 .empty, .addEdge 3 2 "ROAD" (-5) .empty,
    .addEdge 3 4 "ROAD" 1 .empty]

/-- The search comes to the target, but the predecessors of nodes 2 and 3 are each
other. -/
theorem trapSample_diverges : ∃ trace graph,
    (GraphStorage.machine Unit ℚ 10).Run (GraphStorage.init 10) trace graph ∧
      ∀ fuel, findShortestPathDijkstra graph 1 4 fuel = none := by
  have hexec : ∃ trace graph, (GraphStorage.machine Unit ℚ 10).exec (GraphStorage.init 10)
      trapSample = some (trace, graph) ∧
      ((whileLoop (dijkstraBody graph 4) 6 (dijkstraInit 1)).bind id).map
        (fun b => [4, 3, 2].map fun v => (b.get? v).map Edge.src) =
          some [some 3, some 2, some 3] := ⟨_, _, rfl, by decide +kernel⟩
  obtain ⟨trace, graph, hexec, hpred⟩ := hexec
  obtain ⟨backtrack, hmain, hpred⟩ := Option.map_eq_some_iff.mp hpred
  obtain ⟨r, hmain, rfl⟩ := Option.bind_eq_some_iff.mp hmain
  simp only [List.map_cons, List.map_nil, List.cons.injEq, and_true] at hpred
  obtain ⟨h4, h3, h2⟩ := hpred
  refine ⟨trace, graph, Machine.exec_run (M := GraphStorage.machine Unit ℚ 10) rfl hexec,
    fun fuel => ?_⟩
  -- from 4 the way back goes to 3, and then to and fro between 3 and 2
  have hgoes : ∀ curr prev ids, curr ≠ 1 → (backtrack.get? curr).map Edge.src = some prev →
      ∃ i, rebuildBody backtrack 1 (curr, ids) = .again (prev, ids ++ [i]) := by
    intro curr prev ids hne hprev
    obtain ⟨e, he, rfl⟩ := Option.map_eq_some_iff.mp hprev
    exact ⟨e.id, by rw [rebuildBody, if_neg hne, he]⟩
  have hdiverges : whileLoop (rebuildBody backtrack 1) fuel (4, []) = none := by
    refine whileLoop_diverges (I := fun s => s.1 = 4 ∨ s.1 = 3 ∨ s.1 = 2) ?_ (Or.inl rfl) fuel
    intro s hs
    obtain ⟨curr, ids⟩ := s
    rcases hs with rfl | rfl | rfl
    · obtain ⟨i, hi⟩ := hgoes 4 3 ids (by decide) h4
      exact ⟨_, hi, Or.inr (Or.inl rfl)⟩
    · obtain ⟨i, hi⟩ := hgoes 3 2 ids (by decide) h3
      exact ⟨_, hi, Or.inr (Or.inr rfl)⟩
    · obtain ⟨i, hi⟩ := hgoes 2 3 ids (by decide) h2
      exact ⟨_, hi, Or.inr (Or.inl rfl)⟩
  unfold findShortestPathDijkstra
  cases hn : whileLoop (dijkstraBody graph 4) fuel (dijkstraInit 1) with
  | none => rfl
  | some b =>
    obtain rfl := whileLoop_unique hmain hn
    dsimp only [id_eq]
    rw [hdiverges]
    rfl

theorem dijkstra_never_stops : ∃ trace graph,
    (GraphStorage.machine Unit ℚ 10).Run (GraphStorage.init 10) trace graph ∧
      ¬ ((∃ fuel r, findShortestPathDijkstra graph 1 4 fuel = some r) ∧
        ∀ fuel ids, findShortestPathDijkstra graph 1 4 fuel = some (.ok (some ids)) →
          ∃ p, graph.network.Walk 1 p 4 ∧ p.map Edge.id = ids) := by
  obtain ⟨trace, graph, hrun, hnone⟩ := trapSample_diverges
  refine ⟨trace, graph, hrun, fun hx => ?_⟩
  obtain ⟨⟨fuel, r, hr⟩, _⟩ := hx
  rw [hnone fuel] at hr
  cases hr

theorem dijkstra_stops_iff_sample : ∃ trace graph,
    (GraphStorage.machine Unit ℚ 10).Run (GraphStorage.init 10) trace graph ∧
      graph.network.Trapped Edge.weight 1 4 ∧ ∃ v cycle, cycle ≠ [] ∧
        graph.network.Walk v cycle v ∧ (∀ e ∈ cycle, e.dst ≠ 1) ∧ weight Edge.weight cycle < 0 := by
  obtain ⟨trace, graph, hrun, hnone⟩ := trapSample_diverges
  obtain ⟨hiff, hcycle⟩ := dijkstra_stops_iff hrun 1 4
  have htrap : graph.network.Trapped Edge.weight 1 4 := by
    by_contra hfree
    obtain ⟨⟨fuel, r, hr⟩, _⟩ := hiff.mpr hfree
    rw [hnone fuel] at hr
    cases hr
  exact ⟨trace, graph, hrun, htrap, hcycle htrap⟩

end PythonPortfolio.Nebula.GraphTraversal
