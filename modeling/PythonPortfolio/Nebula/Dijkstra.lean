import PythonPortfolio.Library.NearestFirst
import PythonPortfolio.Nebula.Traversal

/-!
# Dijkstra's search

The main loop is a nearest-first search: the nodes it visits are settled in that
order, and for every other node than the start the two maps hold the cheapest
offer so far and its edge. Entries that a cheaper one has overtaken stay in the
heap and are skipped. The second loop follows the cheapest ways in from the
target; it ends unless these lead back to a cycle, which needs negative weights.
-/

namespace PythonPortfolio.Nebula.GraphTraversal

open Library Library.Network

variable {ν : Type} {graph : GraphStorage ν ℚ} {start target : Int} {st st' : DijkstraState ν}

/-! ## Relaxing the edges out of a node -/

/-- The state after the offers `os` have been relaxed. -/
structure Relaxed (G : Network Int (Edge ν ℚ)) (start : Int) (os : List (Edge ν ℚ × ℚ))
    (st : DijkstraState ν) : Prop where
  costs : ∀ v ≠ start, st.costs.get? v = (G.best os v).map Prod.snd
  backtrack : ∀ v ≠ start, st.backtrack.get? v = (G.best os v).map Prod.fst
  sound : ∀ c v, toLex (c, v) ∈ st.pq.items → v ∉ st.visited →
    ∃ e, (e, c) ∈ os ∧ G.dst e = v
  queued : ∀ v o, v ∉ st.visited → G.best os v = some o → toLex (o.2, v) ∈ st.pq.items
  started : start ∈ st.visited

section Relax

variable {os : List (Edge ν ℚ × ℚ)} {c : ℚ} {e : Edge ν ℚ}

@[simp] theorem visited_relax : (relax c st e).visited = st.visited := by
  unfold relax
  dsimp only
  split <;> rfl

theorem length_relax : (relax c st e).pq.items.length ≤ st.pq.items.length + 1 := by
  unfold relax
  dsimp only
  split
  · exact PriorityQueue.length_push.le
  · exact Nat.le_succ _

/-- The comparison with `costs` decides whether the offer is the best one. -/
theorem best_relax (h : Relaxed graph.network start os st) (hne : e.dst ≠ start) :
    graph.network.best (os ++ [(e, c)]) e.dst =
      if improves st.costs e.dst c then some (e, c) else graph.network.best os e.dst := by
  rw [best_concat, if_pos (show graph.network.dst e = e.dst from rfl)]
  unfold improves
  rw [h.costs _ hne]
  cases graph.network.best os e.dst with
  | none => rfl
  | some o => simp

theorem best_relax_ne {v : Int} (hv : v ≠ e.dst) :
    graph.network.best (os ++ [(e, c)]) v = graph.network.best os v := by
  rw [best_concat, if_neg fun hdst => hv hdst.symm]

/-- An offer that improves on the costs is the best one for its node. -/
theorem best_improving (h : Relaxed graph.network start os st) {v : Int} (hv : v ≠ start)
    (himp : improves st.costs e.dst c = true) :
    graph.network.best (os ++ [(e, c)]) v =
      if v = e.dst then some (e, c) else graph.network.best os v := by
  by_cases hd : v = e.dst
  · subst hd
    rw [if_pos rfl, best_relax h hv, if_pos himp]
  · rw [if_neg hd, best_relax_ne hd]

/-- One that does not changes nothing. -/
theorem best_not_improving (h : Relaxed graph.network start os st) {v : Int} (hv : v ≠ start)
    (himp : ¬improves st.costs e.dst c = true) :
    graph.network.best (os ++ [(e, c)]) v = graph.network.best os v := by
  by_cases hd : v = e.dst
  · subst hd
    rw [best_relax h hv, if_neg himp]
  · exact best_relax_ne hd

theorem relaxed_relax (h : Relaxed graph.network start os st) :
    Relaxed graph.network start (os ++ [(e, c + e.weight)]) (relax c st e) := by
  have hsound : ∀ d v, (∃ f, (f, d) ∈ os ∧ graph.network.dst f = v) →
      ∃ f, (f, d) ∈ os ++ [(e, c + e.weight)] ∧ graph.network.dst f = v := by
    intro d v hx
    obtain ⟨f, hf, hdst⟩ := hx
    exact ⟨f, List.mem_append_left _ hf, hdst⟩
  have hne : ∀ v, v ∉ st.visited → v ≠ start := fun v hvis he => hvis (he ▸ h.started)
  unfold relax
  dsimp only
  split
  · next himp =>
    refine ⟨fun v hv => ?_, fun v hv => ?_, fun d v hmem hvis => ?_, fun v o hvis hbest => ?_,
      h.started⟩
    · rw [best_improving h hv himp, Dict.get?_set]
      split
      · rfl
      · exact h.costs v hv
    · rw [best_improving h hv himp, Dict.get?_set]
      split
      · rfl
      · exact h.backtrack v hv
    · rcases PriorityQueue.mem_push.mp hmem with hnew | hold
      · obtain ⟨rfl, rfl⟩ := Prod.mk.inj (toLex.injective hnew)
        exact ⟨e, by simp, rfl⟩
      · exact hsound d v (h.sound d v hold hvis)
    · rw [best_improving h (hne v hvis) himp] at hbest
      refine PriorityQueue.mem_push.mpr ?_
      split at hbest
      · next hd =>
        obtain rfl := Option.some.inj hbest
        rw [hd]
        exact Or.inl rfl
      · exact Or.inr (h.queued v o hvis hbest)
  · next himp =>
    refine ⟨fun v hv => ?_, fun v hv => ?_, fun d v hmem hvis => hsound d v (h.sound d v hmem hvis),
      fun v o hvis hbest => ?_, h.started⟩
    · rw [best_not_improving h hv himp, h.costs v hv]
    · rw [best_not_improving h hv himp, h.backtrack v hv]
    · rw [best_not_improving h (hne v hvis) himp] at hbest
      exact h.queued v o hvis hbest

theorem relaxed_foldl {es : List (Edge ν ℚ)} (h : Relaxed graph.network start os st) :
    Relaxed graph.network start (os ++ es.map fun e => (e, c + e.weight))
      (es.foldl (relax c) st) := by
  induction es generalizing st os with
  | nil => rwa [List.map_nil, List.append_nil]
  | cons e es ih =>
    rw [List.map_cons, List.append_cons]
    exact ih (relaxed_relax h)

theorem visited_foldl {es : List (Edge ν ℚ)} :
    (es.foldl (relax c) st).visited = st.visited := by
  induction es generalizing st with
  | nil => rfl
  | cons e es ih => exact ih.trans visited_relax

theorem length_foldl {es : List (Edge ν ℚ)} :
    (es.foldl (relax c) st).pq.items.length ≤ st.pq.items.length + es.length := by
  induction es generalizing st with
  | nil => exact le_refl _
  | cons e es ih =>
    have hstep : (relax c st e).pq.items.length ≤ st.pq.items.length + 1 := length_relax
    have hrest : ((e :: es).foldl (relax c) st).pq.items.length ≤ _ + es.length := ih
    rw [List.length_cons]
    omega

end Relax

/-! ## The main loop -/

/-- The invariant of the main loop, for the order in which nodes were settled. -/
structure Searching (G : Network Int (Edge ν ℚ)) (start target : Int) (l : List (Int × ℚ))
    (st : DijkstraState ν) : Prop where
  settles : G.Settles Edge.weight start target l
  visited : ∀ v, v ∈ st.visited ↔ v ∈ l.map Prod.fst
  costs : ∀ v ≠ start, st.costs.get? v = (G.best (G.offers Edge.weight l) v).map Prod.snd
  backtrack : ∀ v ≠ start, st.backtrack.get? v = (G.best (G.offers Edge.weight l) v).map Prod.fst
  sound : ∀ c v, toLex (c, v) ∈ st.pq.items → v ∉ st.visited →
    G.Candidate Edge.weight start l c v
  queued : ∀ c v, G.Candidate Edge.weight start l c v → ∃ c' ≤ c, toLex (c', v) ∈ st.pq.items

theorem searching_init (graph : GraphStorage ν ℚ) (start target : Int) :
    Searching graph.network start target [] (dijkstraInit start) where
  settles := .nil
  visited v := by simp [dijkstraInit]
  costs v hv := by
    rw [dijkstraInit, Dict.get?_set, if_neg hv]
    rfl
  backtrack v hv := rfl
  sound c v hmem hvis := by
    obtain ⟨rfl, rfl⟩ := Prod.mk.inj (toLex.injective (PriorityQueue.mem_singleton.mp hmem))
    exact ⟨List.not_mem_nil, Or.inl ⟨rfl, rfl, rfl⟩⟩
  queued c v hcand := by
    rcases hcand.2 with ⟨_, rfl, rfl⟩ | ⟨e, he, _⟩
    · exact ⟨0, le_refl _, PriorityQueue.mem_singleton.mpr rfl⟩
    · cases he

section MainLoop

variable {l : List (Int × ℚ)} {c : ℚ} {u : Int} {pq : PriorityQueue (ℚ ×ₗ Int)}

/-- Once something has been relaxed, a candidate is a node with an offer. -/
theorem searching_of_relaxed (hs : graph.network.Settles Edge.weight start target l)
    (hl : l ≠ []) (hvis : ∀ v, v ∈ st.visited ↔ v ∈ l.map Prod.fst)
    (h : Relaxed graph.network start (graph.network.offers Edge.weight l) st) :
    Searching graph.network start target l st := by
  refine ⟨hs, hvis, h.costs, h.backtrack, fun d v hmem hv => ?_, fun d v hcand => ?_⟩
  · exact ⟨fun hv' => hv ((hvis v).mpr hv'), Or.inr (h.sound d v hmem hv)⟩
  · obtain ⟨e, he, hdst⟩ := hcand.2.resolve_left fun hx => hl hx.1
    obtain ⟨o, ho⟩ := exists_best he hdst
    exact ⟨o.2, best_le ho he hdst, h.queued v o (fun hv => hcand.1 ((hvis v).mp hv)) ho⟩

/-- The first entry of the heap that is not stale belongs to the nearest node. -/
theorem Searching.nearest (h : Searching graph.network start target l st)
    (hpop : st.pq.pop? = some (toLex (c, u), pq)) (hu : u ∉ st.visited) :
    graph.network.Nearest Edge.weight start l c u := by
  refine ⟨h.sound c u ((PriorityQueue.mem_pop? hpop).mpr (Or.inl rfl)) hu, fun c' v hcand => ?_⟩
  obtain ⟨d, hd, hmem⟩ := h.queued c' v hcand
  exact (PriorityQueue.pop?_le hpop hmem).trans
    (Prod.Lex.toLex_le_toLex.mpr (hd.lt_or_eq.imp id fun heq => ⟨heq, le_refl v⟩))

/-- A stale entry leaves. -/
theorem Searching.skip (h : Searching graph.network start target l st)
    (hpop : st.pq.pop? = some (toLex (c, u), pq)) (hu : u ∈ st.visited) :
    Searching graph.network start target l { st with pq := pq } := by
  refine ⟨h.settles, h.visited, h.costs, h.backtrack, fun d v hmem hv => ?_, fun d v hcand => ?_⟩
  · exact h.sound d v ((PriorityQueue.mem_pop? hpop).mpr (Or.inr hmem)) hv
  · obtain ⟨d', hd', hmem⟩ := h.queued d v hcand
    refine ⟨d', hd', ((PriorityQueue.mem_pop? hpop).mp hmem).resolve_left fun heq => ?_⟩
    obtain ⟨_, rfl⟩ := Prod.mk.inj (toLex.injective heq)
    exact hcand.1 ((h.visited v).mp hu)

/-- Before its edges are relaxed, a newly visited node only takes its own entries away. -/
theorem Searching.visit (h : Searching graph.network start target l st)
    (hpop : st.pq.pop? = some (toLex (c, u), pq)) (hu : u ∉ st.visited) :
    Relaxed graph.network start (graph.network.offers Edge.weight l)
      { st with pq := pq, visited := insert u st.visited } := by
  have hnear := h.nearest hpop hu
  refine ⟨h.costs, h.backtrack, fun d v hmem hv => ?_, fun v o hv hbest => ?_, ?_⟩
  · rw [Finset.mem_insert, not_or] at hv
    have hcand := h.sound d v ((PriorityQueue.mem_pop? hpop).mpr (Or.inr hmem)) hv.2
    refine hcand.2.resolve_left fun hx => ?_
    obtain ⟨rfl, rfl, rfl⟩ := hx
    rcases hnear.1.2 with ⟨_, rfl, _⟩ | ⟨e, he, _⟩
    · exact hv.1 rfl
    · cases he
  · rw [Finset.mem_insert, not_or] at hv
    obtain ⟨ho, hdst⟩ := best_mem hbest
    have hcand : graph.network.Candidate Edge.weight start l o.2 v :=
      ⟨fun hmem => hv.2 ((h.visited v).mpr hmem), Or.inr ⟨o.1, ho, hdst⟩⟩
    obtain ⟨d, hd, hmem⟩ := h.queued o.2 v hcand
    have hcand' := h.sound d v hmem hv.2
    have heq : d = o.2 := by
      rcases hcand'.2 with ⟨hnil, _⟩ | ⟨e, he, hdst'⟩
      · rw [hnil] at ho
        cases ho
      · exact le_antisymm hd (best_le hbest he hdst')
    refine ((PriorityQueue.mem_pop? hpop).mp (heq ▸ hmem)).resolve_left fun hx => ?_
    exact hv.1 (Prod.mk.inj (toLex.injective hx)).2
  · refine Finset.mem_insert.mpr ?_
    by_cases hnil : l = []
    · rcases hnear.1.2 with ⟨_, hstart, _⟩ | ⟨e, he, _⟩
      · exact Or.inl hstart.symm
      · rw [hnil] at he
        cases he
    · exact Or.inr ((h.visited start).mpr (h.settles.start_mem hnil))

/-- Relaxing the edges out of the nearest node settles it. -/
theorem Searching.settle (hc : graph.Consistent)
    (h : Searching graph.network start target l st)
    (hpop : st.pq.pop? = some (toLex (c, u), pq)) (hu : u ∉ st.visited) (hne : u ≠ target) :
    Searching graph.network start target (l ++ [(u, c)])
      ((graph.iterOutEdges u none).foldl (relax c)
        { st with pq := pq, visited := insert u st.visited }) := by
  refine searching_of_relaxed (h.settles.snoc (h.nearest hpop hu) hne) (by simp)
    (fun v => ?_) ?_
  · rw [visited_foldl, List.map_append, List.mem_append, List.map_singleton, List.mem_singleton,
      Finset.mem_insert, h.visited, or_comm]
  · have hoffers : graph.network.offers Edge.weight (l ++ [(u, c)]) =
        graph.network.offers Edge.weight l ++
          (graph.iterOutEdges u none).map fun e => (e, c + e.weight) := by
      rw [offers_append, GraphStorage.iterOutEdges_none hc]
      simp only [offers, List.flatMap_cons, List.flatMap_nil, List.append_nil]
    rw [hoffers]
    exact relaxed_foldl (h.visit hpop hu)

/-- What is left to do: the heap, and the edges out of nodes not visited. -/
def DijkstraState.remaining (graph : GraphStorage ν ℚ) (st : DijkstraState ν) : Nat :=
  st.pq.items.length + (graph.network.pending Edge.src st.visited).length

theorem dijkstraBody_pop (hpop : st.pq.pop? = some (toLex (c, u), pq)) :
    dijkstraBody graph target st =
      if u = target then .leave (some st.backtrack)
      else if u ∈ st.visited then .again { st with pq := pq }
      else .again ((graph.iterOutEdges u none).foldl (relax c)
        { st with pq := pq, visited := insert u st.visited }) := by
  rw [dijkstraBody, hpop]
  rfl

theorem dijkstraBody_empty (hpop : st.pq.pop? = none) :
    dijkstraBody graph target st = .leave none := by
  rw [dijkstraBody, hpop]

/-- One pass of the main loop. -/
theorem searching_dijkstraBody (hc : graph.Consistent)
    (h : ∃ l, Searching graph.network start target l st)
    (hbody : dijkstraBody graph target st = .again st') :
    (∃ l, Searching graph.network start target l st') ∧
      st'.remaining graph < st.remaining graph := by
  obtain ⟨l, h⟩ := h
  cases hpop : st.pq.pop? with
  | none =>
    rw [dijkstraBody_empty hpop] at hbody
    cases hbody
  | some x =>
    obtain ⟨entry, pq⟩ := x
    obtain ⟨⟨c, u⟩, rfl⟩ := toLex.surjective entry
    rw [dijkstraBody_pop hpop] at hbody
    have hlen := PriorityQueue.length_pop? hpop
    by_cases hne : u = target
    · rw [if_pos hne] at hbody
      cases hbody
    · rw [if_neg hne] at hbody
      by_cases hu : u ∈ st.visited
      · rw [if_pos hu] at hbody
        cases hbody
        refine ⟨⟨l, h.skip hpop hu⟩, ?_⟩
        simp only [DijkstraState.remaining]
        omega
      · rw [if_neg hu] at hbody
        cases hbody
        refine ⟨⟨_, h.settle hc hpop hu hne⟩, ?_⟩
        have hpushed : ((graph.iterOutEdges u none).foldl (relax c)
            { st with pq := pq, visited := insert u st.visited }).pq.items.length ≤
            pq.items.length + (graph.iterOutEdges u none).length := length_foldl
        have hpend := length_pending (G := graph.network) Edge.src hu
        have hout : (graph.network.edges.filter fun e => e.src = u).length =
            (graph.iterOutEdges u none).length := by
          rw [GraphStorage.iterOutEdges_none hc]
          rfl
        simp only [DijkstraState.remaining, visited_foldl]
        omega

/-- What the main loop leaves with: nothing when no walk leads to the target, else
the cheapest ways in at the moment the search comes to it. -/
def Outcome (G : Network Int (Edge ν ℚ)) (start target : Int) :
    Option (Dict Int (Edge ν ℚ)) → Prop
  | none => ∀ p, ¬ G.Walk start p target
  | some backtrack => ∃ l c, G.Arrives Edge.weight start target l c ∧
    ∀ v ≠ start, backtrack.get? v = (G.best (G.offers Edge.weight l) v).map Prod.fst

theorem outcome_dijkstraBody {r : Option (Dict Int (Edge ν ℚ))}
    (h : ∃ l, Searching graph.network start target l st)
    (hbody : dijkstraBody graph target st = .leave r) : Outcome graph.network start target r := by
  obtain ⟨l, h⟩ := h
  cases hpop : st.pq.pop? with
  | none =>
    rw [dijkstraBody_empty hpop] at hbody
    cases hbody
    refine h.settles.unreachable fun c v hcand => ?_
    obtain ⟨c', _, hmem⟩ := h.queued c v hcand
    rw [PriorityQueue.pop?_eq_none.mp hpop] at hmem
    cases hmem
  | some x =>
    obtain ⟨entry, pq⟩ := x
    obtain ⟨⟨c, u⟩, rfl⟩ := toLex.surjective entry
    rw [dijkstraBody_pop hpop] at hbody
    by_cases hne : u = target
    · rw [if_pos hne] at hbody
      cases hbody
      subst hne
      have hu : u ∉ st.visited := fun hu => h.settles.target_not_mem ((h.visited u).mp hu)
      exact ⟨l, c, ⟨h.settles, h.nearest hpop hu⟩, h.backtrack⟩
    · rw [if_neg hne] at hbody
      split at hbody <;> cases hbody

/-- The main loop always ends. -/
theorem dijkstra_outcome (hc : graph.Consistent) (start target : Int) :
    ∃ fuel r, whileLoop (dijkstraBody graph target) fuel (dijkstraInit start) = some r ∧
      Outcome graph.network start target r :=
  whileLoop_returns (DijkstraState.remaining graph)
    (fun _ _ h hbody => searching_dijkstraBody hc h hbody)
    (fun _ _ h hbody => outcome_dijkstraBody h hbody) ⟨[], searching_init graph start target⟩

end MainLoop

/-! ## Following the predecessors -/

section Rebuild

variable {backtrack : Dict Int (Edge ν ℚ)} {l : List (Int × ℚ)} {c : ℚ}

theorem rebuildBody_start (ids : List Int) :
    rebuildBody backtrack start (start, ids) = .leave (.ok ids.reverse) := by
  rw [rebuildBody, if_pos rfl]

/-- Away from the start, the second loop takes the cheapest way in backwards. -/
theorem rebuildBody_again {curr : Int} {e : Edge ν ℚ} {os : List (Edge ν ℚ × ℚ)}
    (hback : ∀ v ≠ start, backtrack.get? v = (graph.network.best os v).map Prod.fst)
    (hne : curr ≠ start) (hbest : graph.network.best os curr = some (e, c)) (ids : List Int) :
    rebuildBody backtrack start (curr, ids) = .again (e.src, ids ++ [e.id]) := by
  rw [rebuildBody, if_neg hne, hback curr hne, hbest]
  rfl

/-- On the way back from the target there is always a way in to take. -/
theorem rebuildBody_goes (harr : graph.network.Arrives Edge.weight start target l c)
    (hback : ∀ v ≠ start, backtrack.get? v =
      (graph.network.best (graph.network.offers Edge.weight l) v).map Prod.fst)
    {curr : Int} {p : List (Edge ν ℚ)} (hne : curr ≠ start)
    (hp : graph.network.CheapestWalk Edge.weight start l curr p target) (ids : List Int) :
    ∃ e, rebuildBody backtrack start (curr, ids) = .again (e.src, ids ++ [e.id]) ∧
      graph.network.CheapestWalk Edge.weight start l e.src (e :: p) target := by
  have hcurr : curr = target ∨ curr ∈ l.map Prod.fst := by
    cases p with
    | nil => exact Or.inl (walk_nil.mp hp.1)
    | cons e p =>
      have hmem := hp.settled List.mem_cons_self
      rw [← hp.head] at hmem
      exact Or.inr hmem
  obtain ⟨e, d, hbest, he⟩ := harr.way_in hcurr hne
  exact ⟨e, rebuildBody_again hback hne hbest ids, hp.cons he hne hbest⟩

/-- Unless the search is trapped, the second loop returns a walk of cheapest ways in. -/
theorem rebuild_returns (harr : graph.network.Arrives Edge.weight start target l c)
    (hback : ∀ v ≠ start, backtrack.get? v =
      (graph.network.best (graph.network.offers Edge.weight l) v).map Prod.fst)
    (hfree : ¬ graph.network.Trapped Edge.weight start target) :
    ∃ fuel r, whileLoop (rebuildBody backtrack start) fuel (target, []) = some r ∧
      ∃ p, r = .ok (p.map Edge.id) ∧
        graph.network.CheapestWalk Edge.weight start l start p target := by
  refine whileLoop_returns
    (I := fun s => ∃ p, s.2 = (p.map Edge.id).reverse ∧
      graph.network.CheapestWalk Edge.weight start l s.1 p target)
    (fun s => l.length + 1 - s.2.length) ?_ ?_ ⟨[], rfl, cheapestWalk_nil⟩
  · intro s s' h hbody
    obtain ⟨curr, ids⟩ := s
    obtain ⟨p, rfl, hp⟩ := h
    by_cases hstart : curr = start
    · subst hstart
      rw [rebuildBody_start] at hbody
      cases hbody
    · obtain ⟨e, hagain, hp'⟩ := rebuildBody_goes harr hback hstart hp (p.map Edge.id).reverse
      rw [hagain] at hbody
      cases hbody
      refine ⟨⟨e :: p, by simp, hp'⟩, ?_⟩
      have hlen := hp.length_le harr hfree
      simp only [List.length_append, List.length_reverse, List.length_map, List.length_singleton]
      omega
  · intro s r h hbody
    obtain ⟨curr, ids⟩ := s
    obtain ⟨p, rfl, hp⟩ := h
    by_cases hstart : curr = start
    · subst hstart
      rw [rebuildBody_start] at hbody
      cases hbody
      exact ⟨p, by rw [List.reverse_reverse], hp⟩
    · obtain ⟨e, hagain, _⟩ := rebuildBody_goes harr hback hstart hp (p.map Edge.id).reverse
      rw [hagain] at hbody
      cases hbody

/-- When the search is trapped, the second loop runs forever. -/
theorem rebuild_diverges (harr : graph.network.Arrives Edge.weight start target l c)
    (hback : ∀ v ≠ start, backtrack.get? v =
      (graph.network.best (graph.network.offers Edge.weight l) v).map Prod.fst)
    (h : graph.network.Trapped Edge.weight start target) (fuel : Nat) :
    whileLoop (rebuildBody backtrack start) fuel (target, []) = none := by
  obtain ⟨l', c', v, cycle, lead, harr', hne, hcycle, hlead⟩ := h
  obtain rfl := harr.unique harr'
  refine whileLoop_diverges
    (I := fun s => ∃ p, graph.network.CheapestWalk Edge.weight start l v p s.1) ?_ ⟨lead, hlead⟩ fuel
  intro s hs
  obtain ⟨p, hp⟩ := hs
  obtain ⟨hstart, e, d, hbest, p', hp'⟩ := CheapestWalk.back hcycle hne hp
  exact ⟨_, rebuildBody_again hback hstart hbest s.2, p', hp'⟩

end Rebuild

/-! ## The method -/

theorem findShortestPathDijkstra_unique {n m : Nat}
    {r r' : Except StorageError (Option (List Int))}
    (h : findShortestPathDijkstra graph start target n = some r)
    (h' : findShortestPathDijkstra graph start target m = some r') : r = r' := by
  unfold findShortestPathDijkstra at h h'
  cases hn : whileLoop (dijkstraBody graph target) n (dijkstraInit start) with
  | none =>
    rw [hn] at h
    cases h
  | some b =>
    cases hm : whileLoop (dijkstraBody graph target) m (dijkstraInit start) with
    | none =>
      rw [hm] at h'
      cases h'
    | some b' =>
      obtain rfl := whileLoop_unique hn hm
      rw [hn] at h
      rw [hm] at h'
      cases b with
      | none => exact Option.some.inj (h.symm.trans h')
      | some backtrack =>
        obtain ⟨ids, hids, rfl⟩ := Option.map_eq_some_iff.mp h
        obtain ⟨ids', hids', rfl⟩ := Option.map_eq_some_iff.mp h'
        rw [whileLoop_unique hids hids']

/-- The three ways a call can go. -/
theorem findShortestPathDijkstra_cases (hc : graph.Consistent) (start target : Int) :
    (∃ fuel, findShortestPathDijkstra graph start target fuel = some (.ok none) ∧
      ∀ p, ¬ graph.network.Walk start p target) ∨
    (¬ graph.network.Trapped Edge.weight start target ∧ ∃ l c, graph.network.Arrives Edge.weight
      start target l c ∧ ∃ fuel p, findShortestPathDijkstra graph start target fuel =
        some (.ok (some (p.map Edge.id))) ∧
        graph.network.CheapestWalk Edge.weight start l start p target) ∨
    (graph.network.Trapped Edge.weight start target ∧
      ∀ fuel, findShortestPathDijkstra graph start target fuel = none) := by
  obtain ⟨fuel, r, hmain, hout⟩ := dijkstra_outcome hc start target
  cases r with
  | none => exact Or.inl ⟨fuel, by rw [findShortestPathDijkstra, hmain], hout⟩
  | some backtrack =>
    obtain ⟨l, c, harr, hback⟩ := hout
    refine Or.inr ?_
    by_cases htrap : graph.network.Trapped Edge.weight start target
    · refine Or.inr ⟨htrap, fun n => ?_⟩
      unfold findShortestPathDijkstra
      cases hn : whileLoop (dijkstraBody graph target) n (dijkstraInit start) with
      | none => rfl
      | some b =>
        obtain rfl := whileLoop_unique hmain hn
        dsimp only
        rw [rebuild_diverges harr hback htrap n]
        rfl
    · obtain ⟨fuel', r, hrebuild, p, rfl, hp⟩ := rebuild_returns harr hback htrap
      refine Or.inl ⟨htrap, l, c, harr, max fuel fuel', p, ?_, hp⟩
      unfold findShortestPathDijkstra
      rw [whileLoop_mono (Nat.le_max_left fuel fuel') hmain]
      dsimp only
      rw [whileLoop_mono (Nat.le_max_right fuel fuel') hrebuild]
      rfl

end PythonPortfolio.Nebula.GraphTraversal
