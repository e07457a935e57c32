import PythonPortfolio.Nebula.Traversal

/-!
# Breadth-first search is exact

What has been yielded and what waits in the queue form one list in which every
visited node stands once, at a depth at which a walk reaches it. The depths in it
do not fall and those in the queue differ by at most one, so the depth at which a
node is marked is the least one. A node beyond the cut-off is never enqueued.
-/

namespace PythonPortfolio.Nebula.GraphTraversal

open Library

variable {ν ω : Type}

/-- Everything that was ever enqueued, in order. -/
def BfsState.seen (st : BfsState) : List (Int × Nat) := st.yielded ++ st.queue

section Search

variable {ε : Type} {G : Network Int ε} {start : Int} {maxDepth : Int}

/-- Every visited node was enqueued once, at a depth at which it can be reached. -/
structure Marked (G : Network Int ε) (start maxDepth : Int) (st : BfsState) : Prop where
  nodup : (st.seen.map Prod.fst).Nodup
  visited : ∀ n, n ∈ st.visited ↔ n ∈ st.seen.map Prod.fst
  reached : ∀ x ∈ st.seen, x.2 ∈ G.lengths start x.1 ∧ (x.2 : Int) ≤ maxDepth
  sorted : st.seen.Pairwise fun x y => x.2 ≤ y.2
  started : (start, 0) ∈ st.seen

/-- The invariant of the main loop. -/
structure Exploring (G : Network Int ε) (start maxDepth : Int) (st : BfsState) : Prop extends
    Marked G start maxDepth st where
  near : ∀ x ∈ st.queue, ∀ y ∈ st.seen, y.2 ≤ x.2 + 1
  expanded : ∀ x ∈ st.yielded, (x.2 : Int) < maxDepth → ∀ e ∈ G.out x.1,
    ∃ d ≤ x.2 + 1, (G.dst e, d) ∈ st.seen

/-- What the loop over the edges out of a node has established for some of them. -/
structure Expanded (G : Network Int ε) (start maxDepth : Int) (depth : Nat) (es : List ε)
    (st st' : BfsState) : Prop extends Marked G start maxDepth st' where
  yielded : st'.yielded = st.yielded
  kept : ∀ x ∈ st.seen, x ∈ st'.seen
  near : ∀ x ∈ st'.seen, x.2 ≤ depth + 1
  marked : ∀ e ∈ es, ∃ d ≤ depth + 1, (G.dst e, d) ∈ st'.seen

/-- Marking a new node at the greatest depth so far. -/
theorem Marked.concat {st st' : BfsState} {n : Int} {d : Nat} (h : Marked G start maxDepth st)
    (hnew : n ∉ st.seen.map Prod.fst) (hlength : d ∈ G.lengths start n)
    (hdepth : (d : Int) ≤ maxDepth) (hle : ∀ x ∈ st.seen, x.2 ≤ d)
    (hseen : st'.seen = st.seen ++ [(n, d)]) (hvisited : st'.visited = insert n st.visited) :
    Marked G start maxDepth st' := by
  constructor
  · rw [hseen, List.map_append]
    refine List.nodup_append.mpr ⟨h.nodup, List.nodup_singleton _, fun x hx y hy hxy => ?_⟩
    rw [List.map_singleton, List.mem_singleton] at hy
    have hxn : x = n := hxy.trans hy
    exact hnew (hxn ▸ hx)
  · intro m
    rw [hseen, hvisited, Finset.mem_insert, h.visited, List.map_append, List.mem_append,
      List.map_singleton, List.mem_singleton, or_comm]
  · intro x hx
    rw [hseen] at hx
    rcases mem_concat.mp hx with hx | rfl
    · exact h.reached x hx
    · exact ⟨hlength, hdepth⟩
  · rw [hseen]
    refine List.pairwise_append.mpr ⟨h.sorted, List.pairwise_singleton _ _, ?_⟩
    intro x hx y hy
    rw [List.mem_singleton.mp hy]
    exact hle x hx
  · rw [hseen]
    exact List.mem_append_left _ h.started

end Search

section Model

variable {graph : GraphStorage ν ω} {start maxDepth : Int} {st st' : BfsState} {depth : Nat}

theorem marked_enqueue {e : Edge ν ω} (h : Marked graph.network start maxDepth st)
    (he : e ∈ graph.edges.values) (hsrc : (e.src, depth) ∈ st.seen)
    (hdepth : (depth : Int) < maxDepth) (hnear : ∀ x ∈ st.seen, x.2 ≤ depth + 1) :
    Expanded graph.network start maxDepth depth [e] st (enqueue depth st e) := by
  unfold enqueue
  split
  · next hv =>
    obtain ⟨x, hx, hdst⟩ := List.mem_map.mp ((h.visited _).mp hv)
    refine ⟨h, rfl, fun _ hy => hy, hnear, fun f hf => ?_⟩
    rw [List.mem_singleton.mp hf]
    exact ⟨x.2, hnear x hx, (Prod.ext hdst rfl : x = (e.dst, x.2)) ▸ hx⟩
  · next hv =>
    have hnew : e.dst ∉ st.seen.map Prod.fst := fun hmem => hv ((h.visited _).mpr hmem)
    have hseen : BfsState.seen
        { st with
          visited := insert e.dst st.visited
          queue := st.queue ++ [(e.dst, depth + 1)] } = st.seen ++ [(e.dst, depth + 1)] := by
      simp only [BfsState.seen, List.append_assoc]
    have hlength : depth + 1 ∈ graph.network.lengths start e.dst := by
      obtain ⟨⟨p, hp, hlen⟩, _⟩ := h.reached _ hsrc
      refine ⟨p ++ [e], Network.Walk.snoc hp he, ?_⟩
      rw [List.length_append, hlen]
      rfl
    refine ⟨h.concat hnew hlength (by push_cast; omega) hnear hseen rfl, rfl, ?_, ?_, ?_⟩ <;>
      rw [hseen]
    · exact fun x hx => List.mem_append_left _ hx
    · intro x hx
      rcases mem_concat.mp hx with hx | rfl
      · exact hnear x hx
      · exact le_refl _
    · intro f hf
      rw [List.mem_singleton.mp hf]
      exact ⟨depth + 1, le_refl _, List.mem_append_right _ (List.mem_singleton.mpr rfl)⟩

/-- The whole loop over the edges out of a node. -/
theorem marked_foldl {n : Int} {es : List (Edge ν ω)} (h : Marked graph.network start maxDepth st)
    (hes : ∀ e ∈ es, e ∈ graph.edges.values ∧ e.src = n) (hn : (n, depth) ∈ st.seen)
    (hdepth : (depth : Int) < maxDepth) (hnear : ∀ x ∈ st.seen, x.2 ≤ depth + 1) :
    Expanded graph.network start maxDepth depth es st (es.foldl (enqueue depth) st) := by
  induction es generalizing st with
  | nil => exact ⟨h, rfl, fun _ hx => hx, hnear, fun e he => by cases he⟩
  | cons e es ih =>
    obtain ⟨he, hsrc⟩ := hes e List.mem_cons_self
    have hstep := marked_enqueue h he (hsrc ▸ hn) hdepth hnear
    have hrest := ih hstep.toMarked (fun f hf => hes f (List.mem_cons_of_mem _ hf))
      (hstep.kept _ hn) hstep.near
    refine ⟨hrest.toMarked, hrest.yielded.trans hstep.yielded,
      fun x hx => hrest.kept x (hstep.kept x hx), hrest.near, fun f hf => ?_⟩
    rcases List.mem_cons.mp hf with rfl | hf
    · obtain ⟨d, hd, hmem⟩ := hstep.marked f (List.mem_singleton.mpr rfl)
      exact ⟨d, hd, hrest.kept _ hmem⟩
    · exact hrest.marked f hf

/-- What is left to do: the queue, and the edges to nodes not visited. -/
def BfsState.remaining (graph : GraphStorage ν ω) (st : BfsState) : Nat :=
  st.queue.length + (graph.network.pending Edge.dst st.visited).length

theorem remaining_enqueue {e : Edge ν ω} (he : e ∈ graph.edges.values) :
    (enqueue depth st e).remaining graph ≤ st.remaining graph := by
  unfold enqueue
  split
  · exact le_refl _
  · next hv =>
    have hpend := Network.length_pending (G := graph.network) Edge.dst hv
    have hpos : 0 < (graph.network.edges.filter fun f => f.dst = e.dst).length :=
      List.length_pos_of_mem (List.mem_filter.mpr ⟨he, by simp⟩)
    simp only [BfsState.remaining, List.length_append, List.length_singleton]
    omega

theorem remaining_foldl {es : List (Edge ν ω)} (hes : ∀ e ∈ es, e ∈ graph.edges.values) :
    (es.foldl (enqueue depth) st).remaining graph ≤ st.remaining graph := by
  induction es generalizing st with
  | nil => exact le_refl _
  | cons e es ih =>
    exact (ih fun f hf => hes f (List.mem_cons_of_mem _ hf)).trans
      (remaining_enqueue (hes e List.mem_cons_self))

section Pass

variable {n : Int} {queue : List (Int × Nat)}

/-- The state after `popleft` and `yield`. -/
def BfsState.pop (st : BfsState) (x : Int × Nat) (queue : List (Int × Nat)) : BfsState :=
  { st with queue := queue, yielded := st.yielded ++ [x] }

theorem seen_pop (hq : st.queue = (n, depth) :: queue) :
    (st.pop (n, depth) queue).seen = st.seen := by
  rw [BfsState.seen, BfsState.seen, hq]
  exact List.append_assoc _ _ _

theorem marked_pop (h : Marked graph.network start maxDepth st)
    (hq : st.queue = (n, depth) :: queue) :
    Marked graph.network start maxDepth (st.pop (n, depth) queue) := by
  refine ⟨?_, ?_, ?_, ?_, ?_⟩ <;> rw [seen_pop hq]
  · exact h.nodup
  · exact h.visited
  · exact h.reached
  · exact h.sorted
  · exact h.started

/-- One pass, whatever it does with the edges out of the node. -/
theorem exploring_pass {es : List (Edge ν ω)} (h : Exploring graph.network start maxDepth st)
    (hq : st.queue = (n, depth) :: queue)
    (hexp : Expanded graph.network start maxDepth depth es (st.pop (n, depth) queue) st')
    (hes : (depth : Int) < maxDepth → es = graph.network.out n) :
    Exploring graph.network start maxDepth st' := by
  refine ⟨hexp.toMarked, fun x hx y hy => ?_, fun x hx hdepth e he => ?_⟩
  · -- what is left of the queue lies behind the node, at its depth or deeper
    have hsorted := hexp.sorted
    rw [BfsState.seen, hexp.yielded] at hsorted
    have hle : depth ≤ x.2 :=
      (List.pairwise_append.mp hsorted).2.2 (n, depth) (by simp [BfsState.pop]) x hx
    have := hexp.near y hy
    omega
  · rw [hexp.yielded] at hx
    rcases mem_concat.mp hx with hx | rfl
    · obtain ⟨d, hd, hmem⟩ := h.expanded x hx hdepth e he
      exact ⟨d, hd, hexp.kept _ (seen_pop hq ▸ hmem)⟩
    · exact hexp.marked e (hes hdepth ▸ he)

theorem exploring_bfsBody (hc : graph.Consistent) (h : Exploring graph.network start maxDepth st)
    (hbody : bfsBody graph maxDepth st = .again st') :
    Exploring graph.network start maxDepth st' ∧ st'.remaining graph < st.remaining graph := by
  unfold bfsBody at hbody
  cases hq : st.queue with
  | nil =>
    rw [hq] at hbody
    cases hbody
  | cons x queue =>
    obtain ⟨n, depth⟩ := x
    rw [hq] at hbody
    dsimp only at hbody
    have hmem : (n, depth) ∈ st.queue := hq ▸ List.mem_cons_self
    have hnear : ∀ y ∈ (st.pop (n, depth) queue).seen, y.2 ≤ depth + 1 :=
      seen_pop hq ▸ h.near _ hmem
    have hpop : (st.pop (n, depth) queue).remaining graph + 1 = st.remaining graph := by
      simp only [BfsState.remaining, BfsState.pop, hq, List.length_cons]
      omega
    have hmarked := marked_pop h.toMarked hq
    by_cases hdepth : (depth : Int) < maxDepth
    · rw [if_pos hdepth, GraphStorage.iterOutEdges_none hc] at hbody
      cases hbody
      have hout : ∀ e ∈ graph.network.out n, e ∈ graph.edges.values ∧ e.src = n :=
        fun e he => Network.mem_out.mp he
      have hseen : (n, depth) ∈ (st.pop (n, depth) queue).seen :=
        seen_pop hq ▸ List.mem_append_right _ hmem
      refine ⟨exploring_pass h hq (marked_foldl hmarked hout hseen hdepth hnear) fun _ => rfl, ?_⟩
      have hle : ((graph.network.out n).foldl (enqueue depth) (st.pop (n, depth) queue)).remaining
          graph ≤ (st.pop (n, depth) queue).remaining graph :=
        remaining_foldl fun e he => (hout e he).1
      exact hle.trans_lt (by omega)
    · rw [if_neg hdepth] at hbody
      cases hbody
      have hexp : Expanded graph.network start maxDepth depth [] (st.pop (n, depth) queue)
          (st.pop (n, depth) queue) :=
        ⟨hmarked, rfl, fun _ hx => hx, hnear, fun e he => by cases he⟩
      exact ⟨exploring_pass h hq hexp fun hlt => absurd hlt hdepth, Nat.lt_of_succ_le hpop.le⟩

theorem bfsBody_leave {out : List (Int × Nat)} (h : bfsBody graph maxDepth st = .leave out) :
    st.queue = [] ∧ out = st.yielded := by
  unfold bfsBody at h
  cases hq : st.queue with
  | nil =>
    rw [hq] at h
    cases h
    exact ⟨rfl, rfl⟩
  | cons x queue =>
    rw [hq] at h
    dsimp only at h
    split at h <;> cases h

theorem exploring_init (hdepth : 0 ≤ maxDepth) :
    Exploring graph.network start maxDepth ⟨{start}, [(start, 0)], []⟩ where
  nodup := List.nodup_singleton _
  visited n := by simp [BfsState.seen]
  reached x hx := by
    obtain rfl := List.mem_singleton.mp hx
    exact ⟨⟨[], .nil, rfl⟩, hdepth⟩
  sorted := List.pairwise_singleton _ _
  started := List.mem_singleton.mpr rfl
  near x hx y hy := by
    obtain rfl := List.mem_singleton.mp hx
    obtain rfl := List.mem_singleton.mp hy
    omega
  expanded x hx := by cases hx

end Pass

/-- With an empty queue, every walk within the cut-off ends in a node yielded at a
depth no greater than its length. -/
theorem Exploring.complete (h : Exploring graph.network start maxDepth st) (hq : st.queue = [])
    {p : List (Edge ν ω)} {n : Int} (hp : graph.network.Walk start p n)
    (hle : (p.length : Int) ≤ maxDepth) : ∃ d ≤ p.length, (n, d) ∈ st.yielded := by
  have hseen : st.seen = st.yielded := by rw [BfsState.seen, hq, List.append_nil]
  induction hp with
  | nil => exact ⟨0, le_refl _, hseen ▸ h.started⟩
  | @snoc p e _ he ih =>
    rw [List.length_append, List.length_singleton] at hle ⊢
    push_cast at hle
    obtain ⟨d, hd, hmem⟩ := ih (by omega)
    obtain ⟨d', hd', hmem'⟩ := h.expanded _ hmem (by dsimp only; omega) e
      (Network.mem_out.mpr ⟨he, rfl⟩)
    exact ⟨d', by dsimp only at hd'; omega, hseen ▸ hmem'⟩

/-- What the generator has yielded when its queue is empty. -/
theorem Exploring.exact (h : Exploring graph.network start maxDepth st) (hq : st.queue = []) :
    (st.yielded.map Prod.fst).Nodup ∧ st.yielded.Pairwise (fun x y => x.2 ≤ y.2) ∧
      ∀ n d, (n, d) ∈ st.yielded ↔
        IsLeast (graph.network.lengths start n) d ∧ (d : Int) ≤ maxDepth := by
  have hseen : st.seen = st.yielded := by rw [BfsState.seen, hq, List.append_nil]
  have hnodup : (st.yielded.map Prod.fst).Nodup := hseen ▸ h.nodup
  refine ⟨hnodup, hseen ▸ h.sorted, fun n d => ⟨fun hmem => ?_, fun hx => ?_⟩⟩
  · obtain ⟨hreach, hle⟩ := h.reached _ (hseen.symm ▸ hmem)
    refine ⟨⟨hreach, fun k hk => ?_⟩, hle⟩
    obtain ⟨p, hp, rfl⟩ := hk
    by_cases hcut : (p.length : Int) ≤ maxDepth
    · obtain ⟨d', hd', hmem'⟩ := h.complete hq hp hcut
      have heq : d = d' := congrArg Prod.snd (List.inj_on_of_nodup_map hnodup hmem hmem' rfl)
      exact heq.le.trans hd'
    · dsimp only at hle
      omega
  · obtain ⟨⟨⟨p, hp, rfl⟩, hleast⟩, hle⟩ := hx
    obtain ⟨d, hd, hmem⟩ := h.complete hq hp hle
    have heq : d = p.length :=
      le_antisymm hd (hleast (h.reached _ (hseen.symm ▸ hmem)).1)
    exact heq ▸ hmem

end Model

/-- In every reachable store, `bfs` run to its end yields exactly the nodes within
`max_depth` edges of the start, each once and at its least number of edges, in
the order of these numbers. -/
theorem bfs_exact {capacityLimit : Int} {s₀ graph : GraphStorage ν ω}
    {trace : List (GraphStorage.CallStep ν ω)}
    (h : (GraphStorage.machine ν ω capacityLimit).Run s₀ trace graph) (start : Int) {maxDepth : Int}
    (hdepth : 0 ≤ maxDepth) :
    ∃ out, (∃ fuel, bfs graph start maxDepth fuel = some out) ∧ (out.map Prod.fst).Nodup ∧
      out.Pairwise (fun x y => x.2 ≤ y.2) ∧
      ∀ n d, (n, d) ∈ out ↔
        IsLeast (graph.network.lengths start n) d ∧ (d : Int) ≤ maxDepth := by
  have hc := GraphStorage.consistent_run h
  obtain ⟨fuel, out, hrun, st, hs, hq, rfl⟩ := whileLoop_returns
    (Q := fun out => ∃ st, Exploring graph.network start maxDepth st ∧ st.queue = [] ∧
      out = st.yielded)
    (BfsState.remaining graph) (fun _ _ hs hbody => exploring_bfsBody hc hs hbody)
    (fun st _ hs hbody => ⟨st, hs, bfsBody_leave hbody⟩) (exploring_init hdepth)
  exact ⟨st.yielded, ⟨fuel, hrun⟩, hs.exact hq⟩

/-- A cycle, a self-loop and a shortcut; node 4 lies beyond the cut-off. -/
def bfsSample : List (GraphStorage.Call Unit Unit) :=
  [.addNode [] .empty, .addNode [] .empty, .addNode [] .empty, .addNode [] .empty,
    .addEdge 1 2 "KNOWS" () .empty, .addEdge 2 1 "KNOWS" () .empty, .addEdge 2 2 "KNOWS" () .empty,
    .addEdge 2 3 "KNOWS" () .empty, .addEdge 1 3 "KNOWS" () .empty, .addEdge 3 4 "KNOWS" () .empty]

theorem bfs_exact_sample : ∃ trace graph,
    (GraphStorage.machine Unit Unit 10).Run (GraphStorage.init 10) trace graph ∧
      (∃ fuel, bfs graph 1 1 fuel = some [(1, 0), (2, 1), (3, 1)]) ∧
      IsLeast (graph.network.lengths 1 3) 1 := by
  have hexec : ∃ trace graph, (GraphStorage.machine Unit Unit 10).exec (GraphStorage.init 10)
      bfsSample = some (trace, graph) ∧ bfs graph 1 1 4 = some [(1, 0), (2, 1), (3, 1)] :=
    ⟨_, _, rfl, by decide⟩
  obtain ⟨trace, graph, hexec, hbfs⟩ := hexec
  have hrun := Machine.exec_run (M := GraphStorage.machine Unit Unit 10) rfl hexec
  obtain ⟨out, ⟨fuel, hout⟩, _, _, hexact⟩ := bfs_exact hrun 1 (Int.one_nonneg)
  obtain rfl := whileLoop_unique hbfs hout
  exact ⟨trace, graph, hrun, ⟨4, hbfs⟩, ((hexact 3 1).mp (by decide)).1⟩

end PythonPortfolio.Nebula.GraphTraversal
