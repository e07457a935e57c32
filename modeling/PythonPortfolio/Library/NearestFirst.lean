import Mathlib.Data.List.MinMax
import Mathlib.Data.List.Nodup
import Mathlib.Data.Prod.Lex
import PythonPortfolio.Library.Walks

/-!
# Nearest-first search

From a start node, the search settles one node after another: the nearest node
that is not settled, at the cost of a settled node and an edge out of it. The
order is a notion of the graph alone, for weights of any sign. The cheapest way
into a node is an edge, and following these edges backwards leads to the start
unless they close a cycle; such a cycle has negative weight. Without negative
weights the costs are the least weights of walks.
-/

namespace PythonPortfolio.Library.Network

variable {V ε ω : Type} [LinearOrder V] [AddCommGroup ω] [LinearOrder ω]

/-! ## Offers -/

/-- The edges out of settled nodes, each with the cost of taking it. -/
def offers (G : Network V ε) (w : ε → ω) (l : List (V × ω)) : List (ε × ω) :=
  l.flatMap fun u => (G.out u.1).map fun e => (e, u.2 + w e)

/-- The cheapest offer to a node, and of several the first. -/
def best (G : Network V ε) (os : List (ε × ω)) (v : V) : Option (ε × ω) :=
  (os.filter fun o => G.dst o.1 = v).argmin Prod.snd

variable {G : Network V ε} {w : ε → ω} {start target : V}

section Best

variable {os os' : List (ε × ω)} {o o' : ε × ω} {v : V}

omit [AddCommGroup ω] in
theorem best_mem (h : G.best os v = some o) : o ∈ os ∧ G.dst o.1 = v := by
  simpa using List.mem_filter.mp (List.argmin_mem h)

omit [AddCommGroup ω] in
theorem best_le (h : G.best os v = some o) (ho : o' ∈ os) (hv : G.dst o'.1 = v) : o.2 ≤ o'.2 :=
  List.le_of_mem_argmin (List.mem_filter.mpr ⟨ho, by simpa using hv⟩) h

omit [AddCommGroup ω] in
theorem exists_best (ho : o ∈ os) (hv : G.dst o.1 = v) : ∃ o', G.best os v = some o' := by
  refine Option.ne_none_iff_exists'.mp fun hnone => ?_
  have hmem : o ∈ os.filter fun o => G.dst o.1 = v := List.mem_filter.mpr ⟨ho, by simpa using hv⟩
  rw [List.argmin_eq_none.mp hnone] at hmem
  cases hmem

omit [AddCommGroup ω] in
/-- One more offer replaces the best one only when it is cheaper. -/
theorem best_concat (os : List (ε × ω)) (o : ε × ω) (v : V) :
    G.best (os ++ [o]) v =
      if G.dst o.1 = v then
        match G.best os v with
        | none => some o
        | some o' => if o.2 < o'.2 then some o else some o'
      else G.best os v := by
  unfold best
  rw [List.filter_append, List.filter_singleton]
  by_cases hv : G.dst o.1 = v
  · rw [if_pos hv, decide_eq_true hv, cond_true, List.argmin_concat]
    cases (os.filter fun o => G.dst o.1 = v).argmin Prod.snd <;> rfl
  · rw [if_neg hv, decide_eq_false hv, cond_false, List.append_nil]

omit [AddCommGroup ω] in
/-- Later offers that are not cheaper change nothing. -/
theorem best_append (h : G.best os v = some o)
    (hle : ∀ o' ∈ os', G.dst o'.1 = v → o.2 ≤ o'.2) : G.best (os ++ os') v = some o := by
  induction os' using List.reverseRecOn with
  | nil => rwa [List.append_nil]
  | append_singleton os' x ih =>
    have hx := ih fun o' ho' => hle o' (List.mem_append_left _ ho')
    rw [← List.append_assoc, best_concat, hx]
    by_cases hv : G.dst x.1 = v
    · have := hle x (by simp) hv
      simp [not_lt.mpr this]
    · rw [if_neg hv]

end Best

omit [LinearOrder ω] in
theorem mem_offers {l : List (V × ω)} {e : ε} {c : ω} :
    (e, c) ∈ G.offers w l ↔ e ∈ G.edges ∧ ∃ a, (G.src e, a) ∈ l ∧ a + w e = c := by
  unfold offers
  simp only [List.mem_flatMap, List.mem_map, mem_out, Prod.exists, Prod.mk.injEq]
  constructor
  · intro hx
    obtain ⟨u, a, hu, f, ⟨hf, rfl⟩, rfl, hc⟩ := hx
    exact ⟨hf, a, hu, hc⟩
  · intro hx
    obtain ⟨he, a, hu, hc⟩ := hx
    exact ⟨G.src e, a, hu, e, ⟨he, rfl⟩, rfl, hc⟩

omit [LinearOrder ω] in
theorem offers_append (l l' : List (V × ω)) :
    G.offers w (l ++ l') = G.offers w l ++ G.offers w l' := List.flatMap_append

/-! ## The order in which nodes are settled -/

/-- A node that is not settled, with the cost of a way to it. -/
def Candidate (G : Network V ε) (w : ε → ω) (start : V) (l : List (V × ω)) (c : ω) (v : V) :
    Prop :=
  v ∉ l.map Prod.fst ∧
    ((l = [] ∧ v = start ∧ c = 0) ∨ ∃ e, (e, c) ∈ G.offers w l ∧ G.dst e = v)

/-- The next node: the least candidate by cost and then by node. -/
def Nearest (G : Network V ε) (w : ε → ω) (start : V) (l : List (V × ω)) (c : ω) (v : V) : Prop :=
  G.Candidate w start l c v ∧
    ∀ c' v', G.Candidate w start l c' v' → toLex (c, v) ≤ toLex (c', v')

/-- `G.Settles w start target l`: the search settles the nodes of `l` in this
order and at these costs, and has not come to the target. -/
inductive Settles (G : Network V ε) (w : ε → ω) (start target : V) : List (V × ω) → Prop
  | nil : Settles G w start target []
  | snoc {l : List (V × ω)} {c : ω} {v : V} (h : Settles G w start target l)
      (hn : G.Nearest w start l c v) (hv : v ≠ target) : Settles G w start target (l ++ [(v, c)])

/-- The search comes to the target after it has settled `l`. -/
structure Arrives (G : Network V ε) (w : ε → ω) (start target : V) (l : List (V × ω)) (c : ω) :
    Prop where
  settles : G.Settles w start target l
  nearest : G.Nearest w start l c target

section Order

variable {l l₁ l₂ : List (V × ω)} {a c c' : ω} {u v v' : V} {e : ε}

theorem Nearest.cost_le (h : G.Nearest w start l c v) (h' : G.Candidate w start l c' v') :
    c ≤ c' := by
  rcases Prod.Lex.toLex_le_toLex.mp (h.2 c' v' h') with hlt | heq
  · exact hlt.le
  · exact heq.1.le

theorem Nearest.unique (h : G.Nearest w start l c v) (h' : G.Nearest w start l c' v') :
    c = c' ∧ v = v' := by
  have heq := le_antisymm (h.2 c' v' h'.1) (h'.2 c v h.1)
  exact Prod.ext_iff.mp (toLex.injective heq)

theorem Settles.nodup (h : G.Settles w start target l) : (l.map Prod.fst).Nodup := by
  induction h with
  | nil => exact List.nodup_nil
  | @snoc l c v _ hn _ ih =>
    rw [List.map_append]
    refine List.nodup_append.mpr ⟨ih, List.nodup_singleton _, fun x hx y hy hxy => ?_⟩
    rw [List.map_singleton, List.mem_singleton] at hy
    have hxv : x = v := hxy.trans hy
    exact hn.1.1 (hxv ▸ hx)

theorem Settles.target_not_mem (h : G.Settles w start target l) : target ∉ l.map Prod.fst := by
  induction h with
  | nil => exact List.not_mem_nil
  | snoc _ _ hv ih =>
    rw [List.map_append, List.mem_append, List.map_singleton, List.mem_singleton, not_or]
    exact ⟨ih, hv.symm⟩

/-- The start is settled first, at no cost. -/
theorem Settles.head (h : G.Settles w start target l) : l = [] ∨ ∃ t, l = (start, 0) :: t := by
  induction h with
  | nil => exact Or.inl rfl
  | snoc _ hn _ ih =>
    rcases ih with rfl | ⟨t, rfl⟩
    · rcases hn.1.2 with ⟨_, rfl, rfl⟩ | ⟨e, he, _⟩
      · exact Or.inr ⟨[], rfl⟩
      · cases he
    · exact Or.inr ⟨_, rfl⟩

theorem Settles.start_mem (h : G.Settles w start target l) (hl : l ≠ []) :
    start ∈ l.map Prod.fst := by
  rcases h.head with rfl | ⟨t, rfl⟩
  · exact absurd rfl hl
  · exact List.mem_cons_self

theorem Settles.split (h : G.Settles w start target (l₁ ++ (v, c) :: l₂)) :
    G.Settles w start target l₁ ∧ G.Nearest w start l₁ c v ∧ v ≠ target := by
  generalize hl : l₁ ++ (v, c) :: l₂ = l at h
  induction h generalizing l₂ with
  | nil => simp at hl
  | snoc h hn hv ih =>
    rcases List.eq_nil_or_concat' l₂ with rfl | ⟨l₂', last, rfl⟩
    · obtain ⟨rfl, hlast⟩ := List.append_inj' hl rfl
      obtain ⟨rfl, rfl⟩ := Prod.mk.inj (List.cons.inj hlast).1
      exact ⟨h, hn, hv⟩
    · rw [← List.cons_append, ← List.append_assoc] at hl
      exact ih (List.append_inj' hl rfl).1

/-- A node is settled at one cost. -/
theorem Settles.cost_unique (h : G.Settles w start target l) (hc : (v, c) ∈ l)
    (hc' : (v, c') ∈ l) : c = c' :=
  congrArg Prod.snd (List.inj_on_of_nodup_map h.nodup hc hc' rfl)

/-- Of two orders one is the beginning of the other. -/
theorem Settles.isPrefix {l' : List (V × ω)} (h : G.Settles w start target l)
    (h' : G.Settles w start target l') (hle : l.length ≤ l'.length) : l <+: l' := by
  induction h with
  | nil => exact List.nil_prefix
  | @snoc l c v _ hn _ ih =>
    rw [List.length_append, List.length_singleton] at hle
    obtain ⟨t, rfl⟩ := ih (by omega)
    cases t with
    | nil =>
      rw [List.append_nil] at hle
      omega
    | cons x t =>
      obtain ⟨v', c'⟩ := x
      obtain ⟨rfl, rfl⟩ := hn.unique h'.split.2.1
      exact ⟨t, by rw [List.append_assoc]; rfl⟩

theorem Arrives.unique {l' : List (V × ω)} (h : G.Arrives w start target l c)
    (h' : G.Arrives w start target l' c') : l = l' := by
  -- a longer order would have to settle the target
  have stop : ∀ {l l' : List (V × ω)} {c c' : ω}, G.Arrives w start target l c →
      G.Arrives w start target l' c' → l.length ≤ l'.length → l = l' := by
    intro l l' c c' h h' hle
    obtain ⟨t, rfl⟩ := h.settles.isPrefix h'.settles hle
    cases t with
    | nil => exact (List.append_nil l).symm
    | cons x t =>
      obtain ⟨v, d⟩ := x
      obtain ⟨_, hn, hv⟩ := h'.settles.split
      exact absurd (h.nearest.unique hn).2.symm hv
  rcases le_total l.length l'.length with hle | hle
  · exact stop h h' hle
  · exact (stop h' h hle).symm

omit [LinearOrder ω] in
/-- A candidate is reached by a walk, once the settled nodes are. -/
theorem Candidate.exists_walk (h : G.Candidate w start l c v)
    (hl : ∀ u ∈ l.map Prod.fst, ∃ p, G.Walk start p u) : ∃ p, G.Walk start p v := by
  rcases h.2 with ⟨_, rfl, _⟩ | ⟨e, he, rfl⟩
  · exact ⟨[], .nil⟩
  · obtain ⟨hmem, a, ha, _⟩ := mem_offers.mp he
    obtain ⟨p, hp⟩ := hl (G.src e) (List.mem_map.mpr ⟨_, ha, rfl⟩)
    exact ⟨p ++ [e], hp.snoc hmem⟩

theorem Settles.exists_walk (h : G.Settles w start target l) :
    ∀ u ∈ l.map Prod.fst, ∃ p, G.Walk start p u := by
  induction h with
  | nil =>
    intro u hu
    cases hu
  | @snoc l c v _ hn _ ih =>
    intro u hu
    rw [List.map_append, List.mem_append, List.map_singleton, List.mem_singleton] at hu
    rcases hu with hu | rfl
    · exact ih u hu
    · exact hn.1.exists_walk ih

theorem Arrives.exists_walk (h : G.Arrives w start target l c) : ∃ p, G.Walk start p target :=
  h.nearest.1.exists_walk h.settles.exists_walk

end Order

/-! ## The cheapest ways in -/

/-- `a` is settled before `b`. -/
def Before (l : List (V × ω)) (a b : V) : Prop :=
  (l.map Prod.fst).idxOf a < (l.map Prod.fst).idxOf b

/-- A walk of cheapest ways in, which does not come back to the start. -/
def CheapestWalk (G : Network V ε) (w : ε → ω) (start : V) (l : List (V × ω)) (a : V)
    (p : List ε) (b : V) : Prop :=
  G.Walk a p b ∧ ∀ e ∈ p, G.dst e ≠ start ∧ ∃ c, G.best (G.offers w l) (G.dst e) = some (e, c)

/-- When the search comes to the target, the cheapest ways in lead back from it to
a cycle and not to the start. -/
def Trapped (G : Network V ε) (w : ε → ω) (start target : V) : Prop :=
  ∃ l c v cycle lead, G.Arrives w start target l c ∧ cycle ≠ [] ∧
    G.CheapestWalk w start l v cycle v ∧ G.CheapestWalk w start l v lead target

section Cheapest

variable {l : List (V × ω)} {a b v : V} {c c' : ω} {e : ε} {p q : List ε}

theorem cheapestWalk_nil : G.CheapestWalk w start l a [] a := ⟨.nil, fun _ he => by cases he⟩

theorem cheapestWalk_concat : G.CheapestWalk w start l a (p ++ [e]) b ↔
    G.CheapestWalk w start l a p (G.src e) ∧ e ∈ G.edges ∧ b ≠ start ∧
      ∃ c, G.best (G.offers w l) b = some (e, c) := by
  unfold CheapestWalk
  rw [walk_concat]
  constructor
  · intro hx
    obtain ⟨⟨hp, he, rfl⟩, hall⟩ := hx
    obtain ⟨hne, c, hc⟩ := hall e (by simp)
    exact ⟨⟨hp, fun f hf => hall f (List.mem_append_left _ hf)⟩, he, hne, c, hc⟩
  · intro hx
    obtain ⟨⟨hp, hall⟩, he, hne, c, hc⟩ := hx
    have hb : G.dst e = b := (best_mem hc).2
    refine ⟨⟨hp, he, hb⟩, fun f hf => ?_⟩
    rcases List.mem_append.mp hf with hf | hf
    · exact hall f hf
    · rw [List.mem_singleton.mp hf, hb]
      exact ⟨hne, c, hc⟩

theorem CheapestWalk.append (h : G.CheapestWalk w start l a p v)
    (h' : G.CheapestWalk w start l v q b) : G.CheapestWalk w start l a (p ++ q) b := by
  refine ⟨h.1.append h'.1, fun e he => ?_⟩
  rcases List.mem_append.mp he with he | he
  · exact h.2 e he
  · exact h'.2 e he

theorem CheapestWalk.split (h : G.CheapestWalk w start l a (p ++ q) b) :
    ∃ v, G.CheapestWalk w start l a p v ∧ G.CheapestWalk w start l v q b := by
  obtain ⟨v, hp, hq⟩ := h.1.split
  exact ⟨v, ⟨hp, fun e he => h.2 e (List.mem_append_left _ he)⟩,
    hq, fun e he => h.2 e (List.mem_append_right _ he)⟩

/-- The cheapest way into a settled node costs at most what the node was settled
at; at the same cost it comes from a node settled before. -/
theorem Settles.best_settled (h : G.Settles w start target l) (hv : (v, c) ∈ l)
    (hne : v ≠ start) (hbest : G.best (G.offers w l) v = some (e, c')) :
    c' ≤ c ∧ (c' = c → Before l (G.src e) v) := by
  obtain ⟨l₁, l₂, rfl⟩ := List.append_of_mem hv
  obtain ⟨h₁, hnear, _⟩ := h.split
  obtain ⟨f, hf, hfv⟩ : ∃ f, (f, c) ∈ G.offers w l₁ ∧ G.dst f = v := by
    rcases hnear.1.2 with ⟨_, hstart, _⟩ | hx
    · exact absurd hstart hne
    · exact hx
  rw [offers_append] at hbest
  have hle : c' ≤ c := best_le hbest (List.mem_append_left _ hf) hfv
  refine ⟨hle, fun heq => ?_⟩
  obtain ⟨o, ho⟩ := exists_best (G := G) hf hfv
  have hoc : o.2 ≤ c := best_le ho hf hfv
  have hcheapest := best_append ho fun o' ho' hv' =>
    (heq ▸ hoc).trans (best_le hbest (List.mem_append_right _ ho') hv')
  rw [hcheapest] at hbest
  obtain rfl := Option.some.inj hbest
  obtain ⟨_, d, hd, _⟩ := mem_offers.mp (best_mem ho).1
  have hmem : G.src e ∈ l₁.map Prod.fst := List.mem_map.mpr ⟨_, hd, rfl⟩
  unfold Before
  rw [List.map_append, List.map_cons, List.idxOf_append_of_mem hmem,
    List.idxOf_append_of_notMem hnear.1.1, List.idxOf_cons_self, Nat.add_zero]
  exact List.idxOf_lt_length_iff.mpr hmem

theorem CheapestWalk.cons (h : G.CheapestWalk w start l b p v) (he : e ∈ G.edges)
    (hne : b ≠ start) (hbest : G.best (G.offers w l) b = some (e, c)) :
    G.CheapestWalk w start l (G.src e) (e :: p) v :=
  CheapestWalk.append (p := [e])
    (cheapestWalk_concat (p := []).mpr ⟨cheapestWalk_nil, he, hne, c, hbest⟩) h

theorem CheapestWalk.head (h : G.CheapestWalk w start l a (e :: p) b) : a = G.src e := by
  obtain ⟨_, hu, _⟩ := CheapestWalk.split (p := [e]) h
  exact walk_nil.mp (cheapestWalk_concat (p := []).mp hu).1.1

/-- The edges of such a walk leave settled nodes. -/
theorem CheapestWalk.settled (h : G.CheapestWalk w start l a p b) (he : e ∈ p) :
    G.src e ∈ l.map Prod.fst := by
  obtain ⟨_, c, hc⟩ := h.2 e he
  obtain ⟨_, d, hd, _⟩ := mem_offers.mp (best_mem hc).1
  exact List.mem_map.mpr ⟨_, hd, rfl⟩

/-- Every node on the way back from the target has a cheapest way in. -/
theorem Arrives.way_in (h : G.Arrives w start target l c)
    (hv : v = target ∨ v ∈ l.map Prod.fst) (hne : v ≠ start) :
    ∃ e c', G.best (G.offers w l) v = some (e, c') ∧ e ∈ G.edges := by
  obtain ⟨e, c', he, hdst⟩ : ∃ e c', (e, c') ∈ G.offers w l ∧ G.dst e = v := by
    rcases hv with rfl | hv
    · rcases h.nearest.1.2 with ⟨_, hstart, _⟩ | ⟨e, he, hdst⟩
      · exact absurd hstart hne
      · exact ⟨e, c, he, hdst⟩
    · obtain ⟨⟨_, c'⟩, hc', rfl⟩ := List.mem_map.mp hv
      obtain ⟨l₁, l₂, rfl⟩ := List.append_of_mem hc'
      rcases h.settles.split.2.1.1.2 with ⟨_, hstart, _⟩ | ⟨e, he, hdst⟩
      · exact absurd hstart hne
      · exact ⟨e, c', offers_append (G := G) l₁ _ ▸ List.mem_append_left _ he, hdst⟩
  obtain ⟨⟨f, d⟩, hbest⟩ := exists_best he hdst
  exact ⟨f, d, hbest, (mem_offers.mp (best_mem hbest).1).1⟩

/-- Unless the search is trapped, the way back from the target does not come to a
node twice. -/
theorem CheapestWalk.src_nodup (harr : G.Arrives w start target l c)
    (hfree : ¬ G.Trapped w start target) (h : G.CheapestWalk w start l a p target) :
    (p.map G.src).Nodup := by
  induction p generalizing a with
  | nil => exact List.nodup_nil
  | cons e p ih =>
    obtain ⟨b, he, hp⟩ := CheapestWalk.split (p := [e]) h
    refine List.nodup_cons.mpr ⟨fun hmem => hfree ?_, ih hp⟩
    obtain ⟨f, hf, hsrc⟩ := List.mem_map.mp hmem
    obtain ⟨p₁, p₂, rfl⟩ := List.append_of_mem hf
    obtain ⟨v, hp₁, hp₂⟩ := hp.split
    obtain rfl : a = v := h.head.trans (hsrc.symm.trans hp₂.head.symm)
    exact ⟨l, c, a, e :: p₁, f :: p₂, harr, by simp, he.append hp₁, hp₂⟩

theorem CheapestWalk.length_le (harr : G.Arrives w start target l c)
    (hfree : ¬ G.Trapped w start target) (h : G.CheapestWalk w start l a p target) :
    p.length ≤ l.length := by
  have hsub : p.map G.src ⊆ l.map Prod.fst := by
    intro u hu
    obtain ⟨e, he, rfl⟩ := List.mem_map.mp hu
    exact h.settled he
  simpa using (List.subperm_of_subset (h.src_nodup harr hfree) hsub).length_le

/-- From a node that a cycle leads to, the way back goes on. -/
theorem CheapestWalk.back (hcycle : G.CheapestWalk w start l v q v) (hq : q ≠ [])
    (h : G.CheapestWalk w start l v p b) :
    b ≠ start ∧ ∃ e c, G.best (G.offers w l) b = some (e, c) ∧
      ∃ p', G.CheapestWalk w start l v p' (G.src e) := by
  have hall := hcycle.append h
  obtain ⟨p', e, hp'⟩ := (List.eq_nil_or_concat' (q ++ p)).resolve_left (by simp [hq])
  rw [hp'] at hall
  obtain ⟨hback, _, hne, c, hbest⟩ := cheapestWalk_concat.mp hall
  exact ⟨hne, e, c, hbest, p', hback⟩

variable [IsOrderedAddMonoid ω]

/-- Along such a walk the costs rise at least by the weights; where they rise by
just the weights the walk follows the order of settling. -/
theorem CheapestWalk.cost_le (hs : G.Settles w start target l)
    (h : G.CheapestWalk w start l a p b) (ha : (a, c) ∈ l) (hb : (b, c') ∈ l) :
    c + weight w p ≤ c' ∧ (c + weight w p = c' → p = [] ∨ Before l a b) := by
  induction p using List.reverseRecOn generalizing b c' with
  | nil =>
    obtain rfl := walk_nil.mp h.1
    obtain rfl := hs.cost_unique ha hb
    exact ⟨by rw [weight_nil, add_zero], fun _ => Or.inl rfl⟩
  | append_singleton p e ih =>
    obtain ⟨hp, _, hne, d, hd⟩ := cheapestWalk_concat.mp h
    obtain ⟨_, cs, hcs, hsum⟩ := mem_offers.mp (best_mem hd).1
    obtain ⟨hle, heq⟩ := ih hp hcs
    obtain ⟨hle', heq'⟩ := hs.best_settled hb hne hd
    rw [weight_append, weight_singleton, ← add_assoc]
    have hstep : c + weight w p + w e ≤ d := hsum ▸ add_le_add_left hle (w e)
    refine ⟨hstep.trans hle', fun hall => Or.inr ?_⟩
    have hd' : d = c' := le_antisymm hle' (hall ▸ hstep)
    have hcs' : c + weight w p = cs := by
      rw [← hd', ← hsum] at hall
      exact add_right_cancel hall
    rcases heq hcs' with rfl | hbefore
    · obtain rfl := walk_nil.mp hp.1
      exact heq' hd'
    · exact lt_trans hbefore (heq' hd')

/-- A cycle of cheapest ways in has negative weight. -/
theorem CheapestWalk.cycle_neg (hs : G.Settles w start target l)
    (h : G.CheapestWalk w start l v p v) (hp : p ≠ []) : weight w p < 0 := by
  obtain ⟨e, q, rfl⟩ := List.exists_cons_of_ne_nil hp
  have hv : v ∈ l.map Prod.fst := by
    rw [h.head]
    exact h.settled List.mem_cons_self
  obtain ⟨⟨_, c⟩, hc, rfl⟩ := List.mem_map.mp hv
  obtain ⟨hle, heq⟩ := h.cost_le hs hc hc
  refine lt_of_le_of_ne (add_le_iff_nonpos_right c |>.mp hle) fun hzero => ?_
  rcases heq (by rw [hzero, add_zero]) with hnil | hbefore
  · cases hnil
  · exact lt_irrefl _ hbefore

/-- A search can only be trapped by a cycle of negative weight that avoids the start. -/
theorem Trapped.cycle_neg (h : G.Trapped w start target) : ∃ v cycle, cycle ≠ [] ∧
    G.Walk v cycle v ∧ (∀ e ∈ cycle, G.dst e ≠ start) ∧ weight w cycle < 0 := by
  obtain ⟨l, c, v, cycle, lead, harr, hne, hcycle, _⟩ := h
  exact ⟨v, cycle, hne, hcycle.1, fun e he => (hcycle.2 e he).1,
    hcycle.cycle_neg harr.settles hne⟩

/-- The cheapest ways in from the start to the target cost at most what the search
came to the target at. -/
theorem Arrives.weight_le (h : G.Arrives w start target l c)
    (hp : G.CheapestWalk w start l start p target) : weight w p ≤ c := by
  rcases List.eq_nil_or_concat' p with rfl | ⟨q, e, rfl⟩
  · obtain rfl := walk_nil.mp hp.1
    rcases h.settles.head with rfl | ⟨t, rfl⟩
    · rcases h.nearest.1.2 with ⟨_, _, rfl⟩ | ⟨e, he, _⟩
      · exact le_refl _
      · cases he
    · exact absurd List.mem_cons_self h.settles.target_not_mem
  · obtain ⟨hq, _, hne, d, hd⟩ := cheapestWalk_concat.mp hp
    obtain ⟨_, cs, hcs, hsum⟩ := mem_offers.mp (best_mem hd).1
    obtain ⟨t, rfl⟩ := h.settles.head.resolve_left (List.ne_nil_of_mem hcs)
    obtain ⟨hle, _⟩ := hq.cost_le h.settles List.mem_cons_self hcs
    rw [zero_add] at hle
    rcases h.nearest.1.2 with ⟨hnil, _⟩ | ⟨f, hf, hft⟩
    · cases hnil
    · have hdc : d ≤ c := best_le hd hf hft
      rw [weight_append, weight_singleton]
      exact (add_le_add_left hle (w e)).trans (hsum.le.trans hdc)

end Cheapest

/-! ## Costs without negative weights -/

section Nonneg

variable {l : List (V × ω)} {c : ω} {v : V} {p : List ε} [IsOrderedAddMonoid ω]

/-- The next node is no dearer than any walk to it. -/
theorem Nearest.le_weight (hw : ∀ e ∈ G.edges, 0 ≤ w e) (hs : G.Settles w start target l)
    (hl : ∀ u a, (u, a) ∈ l → ∀ q, G.Walk start q u → a ≤ weight w q)
    (hn : G.Nearest w start l c v) (hp : G.Walk start p v) : c ≤ weight w p := by
  by_cases hnil : l = []
  · subst hnil
    rcases hn.1.2 with ⟨_, _, rfl⟩ | ⟨e, he, _⟩
    · exact hp.weight_nonneg hw
    · cases he
  · obtain ⟨e, he, q, hq, hin, hout, hle⟩ := hp.leaves hw (hs.start_mem hnil) hn.1.1
    obtain ⟨⟨_, a⟩, ha, rfl⟩ := List.mem_map.mp hin
    have hcand : G.Candidate w start l (a + w e) (G.dst e) :=
      ⟨hout, Or.inr ⟨e, mem_offers.mpr ⟨he, a, ha, rfl⟩, rfl⟩⟩
    exact (hn.cost_le hcand).trans ((add_le_add_left (hl _ a ha q hq) (w e)).trans hle)

theorem Settles.le_weight (hw : ∀ e ∈ G.edges, 0 ≤ w e) (h : G.Settles w start target l)
    (hv : (v, c) ∈ l) (hp : G.Walk start p v) : c ≤ weight w p := by
  induction h generalizing c v p with
  | nil => cases hv
  | snoc hs hn _ ih =>
    rcases List.mem_append.mp hv with hv | hv
    · exact ih hv hp
    · obtain ⟨rfl, rfl⟩ := Prod.mk.inj (List.mem_singleton.mp hv)
      exact hn.le_weight hw hs (fun _ _ ha _ hq => ih ha hq) hp

/-- The search comes to the target at the least weight of a walk. -/
theorem Arrives.le_weight (hw : ∀ e ∈ G.edges, 0 ≤ w e) (h : G.Arrives w start target l c)
    (hp : G.Walk start p target) : c ≤ weight w p :=
  h.nearest.le_weight hw h.settles (fun _ _ ha _ hq => h.settles.le_weight hw ha hq) hp

theorem not_trapped (hw : ∀ e ∈ G.edges, 0 ≤ w e) : ¬ G.Trapped w start target := by
  intro h
  obtain ⟨v, cycle, _, hcycle, _, hneg⟩ := h.cycle_neg
  exact absurd (hcycle.weight_nonneg hw) (not_le.mpr hneg)

end Nonneg

/-- When no candidate is left, no walk leads to the target. -/
theorem Settles.unreachable {l : List (V × ω)} (h : G.Settles w start target l)
    (hnone : ∀ c v, ¬ G.Candidate w start l c v) (p : List ε) : ¬ G.Walk start p target := by
  intro hp
  have hl : l ≠ [] := by
    intro hnil
    exact hnone 0 start ⟨by simp [hnil], Or.inl ⟨hnil, rfl, rfl⟩⟩
  refine h.target_not_mem (hp.closed (fun e he hin => ?_) (h.start_mem hl))
  by_contra hout
  obtain ⟨⟨_, a⟩, ha, hsrc⟩ := List.mem_map.mp hin
  exact hnone (a + w e) (G.dst e)
    ⟨hout, Or.inr ⟨e, mem_offers.mpr ⟨he, a, hsrc ▸ ha, rfl⟩, rfl⟩⟩

end PythonPortfolio.Library.Network
